import MiniRedis.Benchmark.SingleLock
import MiniRedis.Concurrency.Linearization

/-!
# A workload on the two caches

The benchmark runs a workload of `set`, `get`, `del` and `get_or_compute` from many threads on each
cache and reports the number of active keys and the bytes in use. Whatever many threads do to the
sharded cache, if it has one shard and no reaper, the baseline answers the same when one thread makes
the same accesses in their order, and holds the same in the end. What the two then report is not the
same: the baseline counts keys that have expired, and counts other bytes for each entry.
-/
namespace MiniRedis
variable {Key Value Exn : Type}

/-- The call of the baseline that makes an access. There is none for a clean-up. -/
def Access.baseline : Access Key Value → List (TimePoint × BaselineCall Key Value)
  | .set k v ttl now _ => [(now, .set k v ttl)]
  | .get k now _ => [(now, .get k)]
  | .del k _ => [(0, .del k)]
  | .purge .. => []

/-- What the access was answered. -/
def Access.answers : Access Key Value → List (CacheResult Value)
  | .set _ _ _ _ ok => [.flag ok]
  | .get _ _ found => [.found found]
  | .del _ ok => [.flag ok]
  | .purge .. => []

/-- The access is no clean-up. -/
def Access.Kept : Access Key Value → Prop
  | .purge .. => False
  | _ => True

namespace SingleLockCache

/-- `active_key_count` -/
def activeKeyCount (c : SingleLockCache Key Value) : ℕ := c.map.card

/-- `memory_usage_bytes`, for an entry of `sizeofEntry` bytes and strings of the sizes given. -/
def memoryUsageBytes (sizeofEntry : ℕ) (keySize : Key → ℕ) (valueSize : Value → ℕ)
    (c : SingleLockCache Key Value) : ℕ :=
  (c.map.total fun k e => sizeofEntry + keySize k + valueSize e.value) % WordCounter.modulus

end SingleLockCache

variable [DecidableEq Key] {P : CacheParams Key Value} {maxKeys : ℕ}

namespace SingleLockCache
variable {b : SingleLockCache Key Value} {xs ys : Store P}

/-- The baseline represents the list of the only shard, which is within its bound. -/
structure Mirrors (maxKeys : ℕ) (xs : Store P) (b : SingleLockCache Key Value) : Prop where
  keys_eq : b.maxKeys = maxKeys
  holds : ∀ i, b.Holds (xs i)
  card_le : ∀ i, (xs i).card ≤ maxKeys

/-- Only the list of one shard, and hence all of them, has changed. -/
theorem Mirrors.update (hone : P.numShards = 1) (M : Mirrors maxKeys xs b) {i : Fin P.numShards}
    {zs : RecencyList Key (Record Value)} {b' : SingleLockCache Key Value}
    (hkeys : b'.maxKeys = b.maxKeys) (H : b'.Holds zs) (hcard : zs.card ≤ maxKeys) :
    Mirrors maxKeys (Function.update xs i zs) b' where
  keys_eq := hkeys.trans M.keys_eq
  holds := SameList.forall_update hone H
  card_le := by
    intro j
    obtain rfl : j = i := Fin.ext (by omega)
    rwa [Function.update_self]

/-- **One access.** The baseline gives the same answer and represents the same list again. -/
theorem Mirrors.access (hone : P.numShards = 1) (hpos : 1 ≤ maxKeys) {x : Access Key Value}
    (h : Sequential P maxKeys xs x ys) (hkept : x.Kept) (M : Mirrors maxKeys xs b) :
    Transition.outputs answer x.baseline b = x.answers ∧
      Mirrors maxKeys ys (Transition.final answer x.baseline b) := by
  cases h with
  | set k v ttl now =>
      have hcap := SameList.capacityOf_eq hone maxKeys (shardForKey P k)
      have hcard := M.card_le (shardForKey P k)
      obtain ⟨H, hkeys⟩ := holds_set (M.holds (shardForKey P k)) (M.keys_eq.symm ▸ hcard) k v ttl now
      rw [M.keys_eq] at H
      rw [hcap]
      have hok : (b.set k v ttl now).1 = decide (maxKeys ≠ 0) := by
        simpa [SingleLockCache.set] using Nat.ne_of_gt hpos
      exact ⟨congrArg (fun ok => [CacheResult.flag ok]) hok,
        M.update hone hkeys H (RecencyList.card_put_le _ _ _ hcard)⟩
  | get k now =>
      obtain ⟨hfound, H, hkeys⟩ := holds_get (M.holds (shardForKey P k)) k now
      exact ⟨congrArg (fun found => [CacheResult.found found]) hfound,
        M.update hone hkeys H ((card_lookedUp_le now k _).trans (M.card_le _))⟩
  | del k =>
      obtain ⟨hok, H, hkeys⟩ := holds_del (M.holds (shardForKey P k)) k
      exact ⟨congrArg (fun ok => [CacheResult.flag ok]) hok,
        M.update hone hkeys H ((AList.card_erase_le _ k).trans (M.card_le _))⟩
  | purge i now => exact absurd hkept id

/-- A run of accesses. -/
theorem Mirrors.run (hone : P.numShards = 1) (hpos : 1 ≤ maxKeys) {l : List (Access Key Value)}
    (h : Transition.Run (Sequential P maxKeys) xs l ys) (hkept : ∀ x ∈ l, x.Kept)
    (M : Mirrors maxKeys xs b) :
    Transition.outputs answer (l.flatMap Access.baseline) b = l.flatMap Access.answers ∧
      Mirrors maxKeys ys (Transition.final answer (l.flatMap Access.baseline) b) := by
  induction h generalizing b with
  | nil xs => exact ⟨rfl, M⟩
  | @cons xs zs ys x l hstep hrest ih =>
      obtain ⟨hx, hl⟩ := List.forall_mem_cons.mp hkept
      obtain ⟨hout, M'⟩ := M.access hone hpos hstep hx
      obtain ⟨houts, M''⟩ := ih hl M'
      refine ⟨?_, ?_⟩
      · rw [List.flatMap_cons, List.flatMap_cons, Transition.outputs_append, hout, houts]
      · rw [List.flatMap_cons, Transition.final, List.foldl_append]
        exact M''

/-! ## What the caches report -/

omit [DecidableEq Key] in
/-- A sum over all shards, if there is one. -/
theorem sum_of_one (hone : P.numShards = 1) (f : Fin P.numShards → ℕ) (i : Fin P.numShards) :
    ∑ j, f j = f i := by
  refine Finset.sum_eq_single i (fun j _ hj => absurd (Fin.ext (by omega)) hj) (fun hi => ?_)
  exact absurd (Finset.mem_univ i) hi

/-- The baseline counts keys that have expired and have not been looked up since. -/
theorem Mirrors.activeKeyCount (hone : P.numShards = 1) {c : ShardedCache P} (R : c.Rep xs)
    (M : Mirrors maxKeys xs b) (now : TimePoint) :
    c.activeKeyCount now ≤ b.activeKeyCount ∧
      (c.activeKeyCount now = b.activeKeyCount ↔
        ∀ i k r, (xs i).lookup k = some r → r.expired now = false) := by
  let i : Fin P.numShards := ⟨0, P.numShards_pos⟩
  have hall : ∀ j, j = i := fun j => Fin.ext (by omega)
  have hactive : c.activeKeyCount now = (liveRecords now (xs i)).card := by
    rw [R.activeKeyCount_eq, ← Fin.sum_univ_def, sum_of_one hone _ i]
  have hkeys : b.activeKeyCount = (xs i).card := ListedMap.card_eq (M.holds i)
  rw [hactive, hkeys]
  refine ⟨AList.card_filterEntries_le _ _, ?_⟩
  have hiff : (liveRecords now (xs i)).card = (xs i).card ↔
      ∀ x ∈ (xs i).entries, x.2.expired now = false := by
    rw [liveRecords, AList.card, AList.card, AList.filterEntries, List.length_filter_eq_length_iff]
    simp
  rw [hiff]
  constructor
  · intro hlive j k r hr
    rw [hall j] at hr
    exact hlive ⟨k, r⟩ (AList.mem_lookup_iff.mp hr)
  · intro hlive x hx
    exact hlive i x.1 x.2 (AList.mem_lookup_iff.mpr hx)

/-- For each entry the caches count bytes that differ by a constant. -/
theorem Mirrors.memoryUsageBytes (hone : P.numShards = 1) {s : System P Exn}
    (hs : s.Reachable maxKeys) (R : s.cache.Rep xs) (M : Mirrors maxKeys xs b) {extra : ℕ}
    {keySize : Key → ℕ} {valueSize : Value → ℕ} (hkey : ∀ k, P.keySizer k = extra + keySize k)
    (hvalue : ∀ v, P.valueSizer v = extra + valueSize v) (sizeofEntry : ℕ) :
    (s.cache.memoryUsageBytes + b.activeKeyCount * sizeofEntry) % WordCounter.modulus =
      (b.memoryUsageBytes sizeofEntry keySize valueSize +
        b.activeKeyCount * (P.sizeofEntry + 2 * extra)) % WordCounter.modulus := by
  let i : Fin P.numShards := ⟨0, P.numShards_pos⟩
  have hshard : s.cache.memoryUsageBytes =
      (xs i).total (fun k r => P.entryBytes k r.value) % WordCounter.modulus := by
    rw [ShardedCache.memoryUsageBytes, hs.memoryExact, System.storedBytes, sum_of_one hone _ i]
    exact congrArg (· % _) ((R.holds i).listed.total_eq fun k r => P.entryBytes k r.value)
  have hbase : b.memoryUsageBytes sizeofEntry keySize valueSize =
      (xs i).total (fun k r => sizeofEntry + keySize k + valueSize r.value) %
        WordCounter.modulus :=
    congrArg (· % _)
      ((M.holds i).total_eq fun k (r : Record Value) => sizeofEntry + keySize k + valueSize r.value)
  have hkeys : b.activeKeyCount = (xs i).card := ListedMap.card_eq (M.holds i)
  have hsum : (xs i).total (fun k r => P.entryBytes k r.value) + (xs i).card * sizeofEntry =
      (xs i).total (fun k r => sizeofEntry + keySize k + valueSize r.value) +
        (xs i).card * (P.sizeofEntry + 2 * extra) := by
    rw [← AList.total_const, ← AList.total_const, ← AList.total_add, ← AList.total_add]
    congr 1
    funext k r
    rw [CacheParams.entryBytes, hkey, hvalue]
    omega
  rw [hshard, hbase, hkeys, Nat.mod_add_mod, Nat.mod_add_mod, hsum]

end SingleLockCache

namespace System

/-- **The benchmark's workload on the two caches.** Take any run of any number of threads on a cache
of one shard in which no clean-up takes place, calls of `get_or_compute` included. One thread that
makes its accesses in their order on the single-lock cache of the same capacity gets the answers they
got, and both caches hold the same in the end. The baseline then reports at least as many active keys,
as many if and only if no stored entry has expired, and memory that differs by a constant for each
key. -/
theorem workload_agrees (hone : P.numShards = 1) (hpos : 1 ≤ maxKeys) {now : TimePoint}
    {as : List (Action Key Value Exn)} {s : System P Exn}
    (h : Transition.exec step as (init P Exn maxKeys now) = some s)
    {l : List (Access Key Value)} (hl : l = (accesses as (init P Exn maxKeys now)).map Prod.snd)
    (hkept : ∀ x ∈ l, x.Kept) {b : SingleLockCache Key Value}
    (hb : b = Transition.final SingleLockCache.answer (l.flatMap Access.baseline)
      (SingleLockCache.construct maxKeys)) :
    Transition.outputs SingleLockCache.answer (l.flatMap Access.baseline)
        (SingleLockCache.construct maxKeys) = l.flatMap Access.answers ∧
      (∀ i, SameContents (s.cache.shards i) b) ∧
      (∀ t, s.cache.activeKeyCount t ≤ b.activeKeyCount ∧
        (s.cache.activeKeyCount t = b.activeKeyCount ↔
          ∀ k e, s.entry k = some e → isExpired e t = false)) ∧
      ∀ extra sizeofEntry keySize valueSize, (∀ k, P.keySizer k = extra + keySize k) →
        (∀ v, P.valueSizer v = extra + valueSize v) →
        (s.cache.memoryUsageBytes + b.activeKeyCount * sizeofEntry) % WordCounter.modulus =
          (b.memoryUsageBytes sizeofEntry keySize valueSize +
            b.activeKeyCount * (P.sizeofEntry + 2 * extra)) % WordCounter.modulus := by
  obtain ⟨xs, hrun, R⟩ := (linearizable h).1
  rw [← hl] at hrun
  have M₀ : SingleLockCache.Mirrors maxKeys (fun _ => ∅ : Store P)
      (SingleLockCache.construct maxKeys) :=
    ⟨rfl, fun _ => ListedMap.empty, fun _ => Nat.zero_le _⟩
  obtain ⟨houts, M⟩ := M₀.run hone hpos hrun hkept
  rw [← hb] at M
  refine ⟨houts, ?_, ?_, ?_⟩
  · intro i
    have hkeys : b.maxKeys = s.cache.maxKeys :=
      M.keys_eq.trans (reachable_of_exec h).wellFormed.maxKeys_eq.symm
    exact SameList.sameContents ⟨hkeys, xs, R, M.holds⟩ i
  · intro t
    obtain ⟨hle, hiff⟩ := M.activeKeyCount hone R t
    refine ⟨hle, hiff.trans ?_⟩
    constructor
    · intro hlive k e he
      rw [← expired_record]
      exact hlive _ k _ ((R.holds (shardForKey P k)).lookup_some he)
    · intro hlive i k r hr
      obtain ⟨e, he, rfl⟩ := (R.holds i).exists_entry hr
      rw [expired_record]
      refine hlive k e ?_
      rw [entry, R.lookup_home he]
      exact he
  · intro extra sizeofEntry keySize valueSize hkey hvalue
    exact M.memoryUsageBytes hone (reachable_of_exec h) R hkey hvalue sizeofEntry

/-- A thread loads a key while another one stores a second key. -/
private def loadBesideSet : List (Action ℕ ℕ Unit) :=
  [.call 0 (.getOrCompute 1 (some 1)), .run 0, .run 0, .run 0, .call 1 (.set 2 6 none), .run 0,
    .loaderReturn 0 7, .run 1, .run 0, .run 0, .run 0]

theorem workload_agrees_loadBesideSet :
    Transition.outputs SingleLockCache.answer
        [(0, .get 1), (0, .get 1), (0, .set 2 6 none), (0, .set 1 7 (some 1))]
        (SingleLockCache.construct 2)
      = [.found none, .found none, .flag true, .flag true] := by
  let s₀ := init CacheParams.oneShard Unit 2 0
  let s := (Transition.exec step loadBesideSet s₀).get (by decide)
  have hs : Transition.exec step loadBesideSet s₀ = some s := (Option.some_get _).symm
  have hl : [.get 1 0 none, .get 1 0 none, .set 2 6 none 0 true, .set 1 7 (some 1) 0 true] =
      (accesses loadBesideSet s₀).map Prod.snd := by decide
  exact (workload_agrees rfl (by decide) hs hl (by simp [Access.Kept]) rfl).1

end System
end MiniRedis
