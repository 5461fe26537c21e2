import MiniRedis.Cache.Lists
import MiniRedis.Lib.RecencyInclusion

/-!
# A larger cache

Two caches of different capacity are called alike. The shares of the shards grow with the capacity,
so each shard of the smaller cache holds a part of what the same shard of the larger one holds
(`Within`). Then no answer of the smaller cache is better than that of the larger one: adding
capacity never turns a hit into a miss.
-/
namespace MiniRedis
variable {Key Value : Type}

theorem capacityOf_mono (P : CacheParams Key Value) {m n : ℕ} (h : m ≤ n) (i : Fin P.numShards) :
    capacityOf P m i ≤ capacityOf P n i := by
  have hquot : m / P.numShards ≤ n / P.numShards := Nat.div_le_div_right h
  unfold capacityOf
  rcases Nat.lt_or_eq_of_le hquot with hlt | heq
  · split <;> split <;> omega
  · have hm := Nat.div_add_mod m P.numShards
    have hn := Nat.div_add_mod n P.numShards
    rw [heq] at hm
    have hrest : m % P.numShards ≤ n % P.numShards := by omega
    split <;> split <;> omega

/-- The answer of a larger cache: where the smaller one succeeds or finds a value, so does it. -/
inductive CacheResult.Below : CacheResult Value → CacheResult Value → Prop
  | failed (ok : Bool) : Below (.flag false) (.flag ok)
  | succeeded : Below (.flag true) (.flag true)
  | missed (value : Option Value) : Below (.found none) (.found value)
  | found (value : Value) : Below (.found (some value)) (.found (some value))
  | done : Below .done .done

theorem CacheResult.Below.flag {ok ok' : Bool} (h : ok = true → ok' = true) :
    Below (.flag ok : CacheResult Value) (.flag ok') := by
  cases ok with
  | false => exact .failed ok'
  | true => rw [h rfl]; exact .succeeded

theorem CacheResult.Below.value {v v' : Option Value} (h : ∀ x, v = some x → v' = some x) :
    Below (.found v) (.found v') := by
  cases v with
  | none => exact .missed v'
  | some x => rw [h x rfl]; exact .found x

theorem CacheResult.Below.eq_some {v' : Option Value} {x : Value}
    (h : Below (.found (some x)) (.found v')) : v' = some x := by
  cases h
  rfl

variable [DecidableEq Key] {P : CacheParams Key Value}

/-- A `get` keeps the inclusion. -/
theorem included_lookedUp {m n : ℕ} {xs ys : RecencyList Key (Record Value)}
    (h : RecencyList.Included m n xs ys) (now : TimePoint) (k : Key) :
    RecencyList.Included m n (lookedUp now k xs) (lookedUp now k ys) := by
  cases hy : ys.lookup k with
  | none =>
      simp only [lookedUp, hy, h.lookup_none hy]
      exact h
  | some r =>
      cases hx : xs.lookup k with
      | none =>
          simp only [lookedUp, hx, hy]
          split
          · exact h.erase_large hx
          · exact h.touch_large hx
      | some r' =>
          obtain rfl : r = r' := Option.some.inj (hy.symm.trans (h.lookup hx))
          simp only [lookedUp, hx, hy]
          split
          · exact h.erase k
          · exact h.touch k

/-- Caches for `m` and for `n` keys. Each shard of the first holds a part of what the same shard of
the second holds, and the second has hit no less often. It has evicted no more often, unless the
first has shards that refuse every key. -/
structure ShardedCache.Within (m n : ℕ) (c d : ShardedCache P) : Prop where
  small : c.maxKeys = m
  large : d.maxKeys = n
  lists : ∃ xs ys : Fin P.numShards → RecencyList Key (Record Value), c.Rep xs ∧ d.Rep ys ∧
    ∀ i, RecencyList.Included (capacityOf P m i) (capacityOf P n i) (xs i) (ys i)
  hits : c.counters.hits ≤ d.counters.hits
  misses : d.counters.misses ≤ c.counters.misses
  evictions : P.numShards ≤ m → d.counters.evictions ≤ c.counters.evictions

namespace ShardedCache

/-- A call at a clock reading, as an input of a machine. -/
def respond (x : TimePoint × CacheOp Key Value) (c : ShardedCache P) :
    CacheResult Value × ShardedCache P := c.call x.1 x.2

namespace Within
variable {m n : ℕ} {c d : ShardedCache P}

theorem construct (h : m ≤ n) :
    Within m n (ShardedCache.construct P m) (ShardedCache.construct P n) :=
  ⟨rfl, rfl, ⟨_, _, Rep.construct m, Rep.construct n, fun i => .empty (capacityOf_mono P h i)⟩,
    le_rfl, le_rfl, fun _ => le_rfl⟩

omit [DecidableEq Key] in
/-- Both caches replace the list of one shard. -/
theorem included_update {xs ys : Fin P.numShards → RecencyList Key (Record Value)}
    (h : ∀ i, RecencyList.Included (capacityOf P m i) (capacityOf P n i) (xs i) (ys i))
    {i : Fin P.numShards} {xs' ys' : RecencyList Key (Record Value)}
    (h' : RecencyList.Included (capacityOf P m i) (capacityOf P n i) xs' ys')
    (j : Fin P.numShards) :
    RecencyList.Included (capacityOf P m j) (capacityOf P n j) (Function.update xs i xs' j)
      (Function.update ys i ys' j) := by
  by_cases hj : j = i
  · subst hj
    simpa using h'
  · simpa [hj] using h j

theorem set (hmn : m ≤ n) (h : Within m n c d) (k : Key) (v : Value) (ttl : Option Millis)
    (now : TimePoint) :
    CacheResult.Below (.flag (c.set k v ttl now).1 : CacheResult Value)
        (.flag (d.set k v ttl now).1) ∧
      Within m n (c.set k v ttl now).2 (d.set k v ttl now).2 := by
  obtain ⟨rfl, rfl, ⟨xs, ys, R, S, hinc⟩, hhits, hmisses, hevictions⟩ := h
  have hshare := capacityOf_mono P hmn (shardForKey P k)
  have hput := (hinc (shardForKey P k)).put k (storedRecord v ttl now)
  refine ⟨.flag ?_, rfl, rfl, ⟨_, _, R.set k v ttl now, S.set k v ttl now,
    included_update hinc hput⟩, ?_, ?_, ?_⟩
  · rw [R.set_ok, S.set_ok, decide_eq_true_iff, decide_eq_true_iff]
    omega
  · rw [(R.lookups_set k v ttl now).1, (S.lookups_set k v ttl now).1]
    exact hhits
  · rw [(R.lookups_set k v ttl now).2, (S.lookups_set k v ttl now).2]
    exact hmisses
  · intro hm
    have hpos : capacityOf P c.maxKeys (shardForKey P k) ≠ 0 :=
      (capacityOf_ne_zero_iff P c.maxKeys _).mpr ((shardForKey P k).isLt.trans_le hm)
    have hfull := (hinc (shardForKey P k)).full (k := k) (b := storedRecord v ttl now)
    have hle := hevictions hm
    rw [R.evictions_set, S.evictions_set]
    split
    · next hover =>
      rw [if_pos ⟨hpos, hfull hover.2⟩]
      omega
    · omega

theorem get (h : Within m n c d) (k : Key) (now : TimePoint) :
    CacheResult.Below (.found (c.get k now).1) (.found (d.get k now).1) ∧
      Within m n (c.get k now).2 (d.get k now).2 := by
  have hkeys := maxKeys_call (P := P) now (.get k)
  obtain ⟨hsmall, hlarge, ⟨xs, ys, R, S, hinc⟩, hhits, hmisses, hevictions⟩ := h
  have hfound : ∀ v, (c.get k now).1 = some v → (d.get k now).1 = some v := by
    intro v hv
    rw [R.get_eq, Option.bind_eq_some_iff] at hv
    obtain ⟨r, hr, hread⟩ := hv
    rw [S.get_eq, (hinc _).lookup hr]
    exact hread
  obtain ⟨hhits₁, hmisses₁, hevictions₁⟩ := R.counters_get k now
  obtain ⟨hhits₂, hmisses₂, hevictions₂⟩ := S.counters_get k now
  have hcount : (c.get k now).1.isSome.toNat ≤ (d.get k now).1.isSome.toNat ∧
      (d.get k now).1.isNone.toNat ≤ (c.get k now).1.isNone.toNat := by
    cases hc : (c.get k now).1 with
    | none => cases (d.get k now).1 <;> simp
    | some v => simp [hfound v hc]
  refine ⟨.value hfound, (hkeys c).trans hsmall, (hkeys d).trans hlarge,
    ⟨_, _, R.get k now, S.get k now, included_update hinc (included_lookedUp (hinc _) now k)⟩,
    ?_, ?_, ?_⟩
  · omega
  · omega
  · intro hm
    have hle := hevictions hm
    omega

theorem del (h : Within m n c d) (k : Key) :
    CacheResult.Below (.flag (c.del k).1 : CacheResult Value) (.flag (d.del k).1) ∧
      Within m n (c.del k).2 (d.del k).2 := by
  obtain ⟨hsmall, hlarge, ⟨xs, ys, R, S, hinc⟩, hhits, hmisses, hevictions⟩ := h
  refine ⟨.flag ?_, hsmall, hlarge, ⟨_, _, R.del k, S.del k,
    included_update hinc ((hinc _).erase k)⟩, ?_, ?_, ?_⟩
  · rw [R.del_ok, S.del_ok]
    intro hok
    obtain ⟨r, hr⟩ := Option.isSome_iff_exists.mp hok
    rw [(hinc _).lookup hr]
    rfl
  · rw [(R.lookups_del k).1, (S.lookups_del k).1]
    exact hhits
  · rw [(R.lookups_del k).2, (S.lookups_del k).2]
    exact hmisses
  · rw [R.evictions_del, S.evictions_del]
    exact hevictions

theorem cleanupExpired (h : Within m n c d) (now : TimePoint) :
    Within m n (c.cleanupExpired now) (d.cleanupExpired now) := by
  obtain ⟨hsmall, hlarge, ⟨xs, ys, R, S, hinc⟩, hhits, hmisses, hevictions⟩ := h
  refine ⟨(maxKeys_cleanupExpired now c).trans hsmall, (maxKeys_cleanupExpired now d).trans hlarge,
    ⟨_, _, R.cleanupExpired now, S.cleanupExpired now, fun i => (hinc i).filterEntries _⟩,
    ?_, ?_, ?_⟩
  · rw [(R.lookups_cleanupExpired now).1, (S.lookups_cleanupExpired now).1]
    exact hhits
  · rw [(R.lookups_cleanupExpired now).2, (S.lookups_cleanupExpired now).2]
    exact hmisses
  · rw [R.evictions_cleanupExpired, S.evictions_cleanupExpired]
    exact hevictions

theorem respond (hmn : m ≤ n) (h : Within m n c d) (x : TimePoint × CacheOp Key Value) :
    CacheResult.Below (c.respond x).1 (d.respond x).1 ∧
      Within m n (c.respond x).2 (d.respond x).2 := by
  obtain ⟨now, op⟩ := x
  cases op with
  | set k v ttl => exact h.set hmn k v ttl now
  | get k => exact h.get k now
  | del k => exact h.del k
  | cleanupExpired => exact ⟨.done, h.cleanupExpired now⟩

/-- What a shard of the smaller cache holds, in order of use, is a part of what the same shard of the
larger one holds. -/
theorem view_sublist (h : Within m n c d) (i : Fin P.numShards) :
    (c.shards i).view.Sublist (d.shards i).view := by
  obtain ⟨xs, ys, R, S, hinc⟩ := h.lists
  rw [(R.holds i).view_eq, (S.holds i).view_eq]
  exact (hinc i).sublist

end Within

/-- **More capacity never hurts.** Two caches for `m` and for `n ≥ m` keys get the same calls at the
same clock readings. Whatever the smaller one finds, stores or deletes the larger one does too, and
after every call each shard of the larger one holds what the smaller one's holds, in the same order
of use. The larger one hits no less often and misses no more often, and if every shard of the smaller
one has some capacity it evicts no more often. -/
theorem larger_capacity_contains (P : CacheParams Key Value) {m n : ℕ} (hmn : m ≤ n)
    (calls : List (TimePoint × CacheOp Key Value)) :
    let c := Transition.final respond calls (ShardedCache.construct P m)
    let d := Transition.final respond calls (ShardedCache.construct P n)
    List.Forall₂ CacheResult.Below (Transition.outputs respond calls (ShardedCache.construct P m))
        (Transition.outputs respond calls (ShardedCache.construct P n)) ∧
      (∀ i, (c.shards i).view.Sublist (d.shards i).view) ∧
      c.counters.hits ≤ d.counters.hits ∧ d.counters.misses ≤ c.counters.misses ∧
      (P.numShards ≤ m → d.counters.evictions ≤ c.counters.evictions) := by
  obtain ⟨houts, h⟩ := Transition.outputs_forall₂_of_simulation
    (fun x c d (h : Within m n c d) => h.respond hmn x) calls (Within.construct (P := P) hmn)
  exact ⟨houts, h.view_sublist, h.hits, h.misses, h.evictions⟩

/-- Room for one key in each shard, and for two: only the larger cache still finds the first key. -/
theorem larger_capacity_contains_twoShards :
    List.Forall₂ (@CacheResult.Below ℕ)
        [.flag true, .flag true, .found none] [.flag true, .flag true, .found (some 5)] ∧
      (Transition.final respond [(0, .set 1 5 none), (1, .set 3 6 none), (2, .get 1)]
        (ShardedCache.construct CacheParams.twoShards 4)).counters.evictions ≤ 1 := by
  have h := larger_capacity_contains CacheParams.twoShards (show 2 ≤ 4 by decide)
    [(0, .set 1 5 none), (1, .set 3 6 none), (2, .get 1)]
  have hsmall : Transition.outputs respond [(0, .set 1 5 none), (1, .set 3 6 none), (2, .get 1)]
      (ShardedCache.construct CacheParams.twoShards 2) =
        [.flag true, .flag true, .found none] := by decide
  have hlarge : Transition.outputs respond [(0, .set 1 5 none), (1, .set 3 6 none), (2, .get 1)]
      (ShardedCache.construct CacheParams.twoShards 4) =
        [.flag true, .flag true, .found (some 5)] := by decide
  rw [hsmall, hlarge] at h
  exact ⟨h.1, h.2.2.2.2 (by decide)⟩

end ShardedCache
end MiniRedis
