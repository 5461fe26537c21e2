import MiniRedis.Persistence.Encoding

/-!
# What a rejected write leaves behind

A line the parser rejects stops there. A `SET` that the cache refuses, because the shard of its key
has no capacity, is logged all the same, by `set` as well as by `executeLine`: the client is told
that it failed, and a restart with more capacity carries it out.
-/
namespace MiniRedis
variable {M : Platform} {capacity : ℕ}

theorem Processor.Reachable.maxKeys_eq {p : Processor M} (h : p.Reachable capacity) :
    p.cache.maxKeys = capacity := by
  induction h with
  | start clock snapshot aof => exact maxKeys_recoverFromDisk clock snapshot aof _
  | set h key value ttl now ih => exact ih
  | @get p h key now ih =>
      have hget := congrArg (fun r => r.2.maxKeys) (ShardedCache.get_eq_withLock key now p.cache)
      exact hget.trans ih
  | del h key ih => exact ih
  | drain h ih => exact ih
  | reap h now shard ih => exact ih

namespace Processor

/-- The call left nothing behind: not in the cache, with its order of use and its counters, and not
in the queue, so that a later start from the files is the same as without it. -/
structure Untraced (p p' : Processor M) : Prop where
  cache : p'.cache = p.cache
  queue : p'.queue = p.queue
  restart : ∀ (capacity : ℕ) (clock : RecoveryClock) (snapshot aof : Bytes),
    Server.start M capacity clock snapshot (aof ++ aofText p'.queue) =
      Server.start M capacity clock snapshot (aof ++ aofText p.queue)

theorem Untraced.refl (p : Processor M) : p.Untraced p := ⟨rfl, rfl, fun _ _ _ _ => rfl⟩

/-- A processor whose queue has grown is another one. -/
theorem not_untraced_enqueueLine (p : Processor M) (line : Bytes) :
    ¬ p.Untraced (p.enqueueLine line) := by
  intro h
  have hlen := congrArg List.length h.queue
  simp [enqueueLine] at hlen

variable {p : Processor M}

/-- A `set` succeeds if its key's shard has capacity. -/
theorem set_of_lt (hp : p.Reachable capacity) {key : Bytes} (hroom : M.hash key % 64 < capacity)
    (value : Bytes) (ttl : Option Millis) (now : TimePoint) :
    (p.set key value ttl now).1 = true := by
  obtain ⟨xs, R⟩ := hp.rep
  have hcap := (capacityOf_ne_zero_iff M.params p.cache.maxKeys (M.home key)).mpr
    (hp.maxKeys_eq.symm ▸ hroom)
  exact (R.set_ok key value ttl now).trans (decide_eq_true hcap)

/-- Otherwise it is refused by the cache, and logged. -/
theorem set_of_le (hp : p.Reachable capacity) {key : Bytes} (hfull : capacity ≤ M.hash key % 64)
    (value : Bytes) (ttl : Option Millis) (now : TimePoint) :
    p.set key value ttl now = (false, p.enqueueLine (recordSet key value ttl)) := by
  obtain ⟨xs, R⟩ := hp.rep
  have hcap : capacityOf M.params p.cache.maxKeys (M.home key) = 0 := by
    by_contra hne
    have hlt := (capacityOf_ne_zero_iff M.params p.cache.maxKeys (M.home key)).mp hne
    rw [hp.maxKeys_eq] at hlt
    exact absurd hlt (not_lt.mpr hfull)
  have hset : p.cache.set key value ttl now = (false, p.cache) :=
    R.set_of_capacityOf_eq_zero hcap value ttl now
  simp only [set, hset]

/-- A `set` that returns false leaves no trace exactly if it never does. -/
theorem untraced_set_iff (hp : p.Reachable capacity) (key value : Bytes) (ttl : Option Millis)
    (now : TimePoint) :
    ((p.set key value ttl now).1 = false → p.Untraced (p.set key value ttl now).2) ↔
      M.hash key % 64 < capacity := by
  constructor
  · intro h
    by_contra hfull
    have hset := set_of_le hp (not_lt.mp hfull) value ttl now
    rw [hset] at h
    exact not_untraced_enqueueLine p _ (h rfl)
  · intro hroom hfalse
    rw [set_of_lt hp hroom value ttl now] at hfalse
    cases hfalse

/-- Of the lines only a `SET` can fail once it is parsed. -/
theorem ok_executeParsed {parsed : ParsedTcpCommand} (hset : parsed.type ≠ .set)
    (hvalid : parsed.type ≠ .invalid) (now : TimePoint) (p : Processor M) :
    (p.executeParsed parsed now).1.ok = true := by
  unfold executeParsed
  split <;> first | rfl | contradiction

theorem executeLine_of_set {line : Bytes} (h : (parseTcpCommand line).type = .set)
    (now : TimePoint) (p : Processor M) :
    (p.executeLine line now).1.ok = (p.set (parseTcpCommand line).key (parseTcpCommand line).value
        (parseTcpCommand line).ttlMs now).1 ∧
      (p.executeLine line now).2 = (p.set (parseTcpCommand line).key (parseTcpCommand line).value
        (parseTcpCommand line).ttlMs now).2 := by
  simp [executeLine, executeParsed, h]

/-- **A rejected write leaves no trace** if and only if it is not a `SET` of a key whose shard has
no capacity: the index of the shard is below the number of keys that fit into the cache. -/
theorem untraced_rejected_iff (hp : p.Reachable capacity) (now : TimePoint) :
    (∀ line, ((p.executeLine line now).1.ok = false → p.Untraced (p.executeLine line now).2) ↔
      ((parseTcpCommand line).type = .set → M.hash (parseTcpCommand line).key % 64 < capacity)) ∧
    (∀ key value ttl,
      ((p.set key value ttl now).1 = false → p.Untraced (p.set key value ttl now).2) ↔
        M.hash key % 64 < capacity) := by
  refine ⟨?_, fun key value ttl => untraced_set_iff hp key value ttl now⟩
  intro line
  by_cases hset : (parseTcpCommand line).type = .set
  · obtain ⟨hok, hstate⟩ := executeLine_of_set hset now p
    rw [hok, hstate, untraced_set_iff hp]
    exact ⟨fun h _ => h, fun h => h hset⟩
  · refine iff_of_true ?_ (fun h => absurd h hset)
    intro hfalse
    by_cases hinvalid : (parseTcpCommand line).type = .invalid
    · simp only [executeLine, hinvalid, if_true]
      exact .refl p
    · simp only [executeLine, hinvalid, if_false, ok_executeParsed hset hinvalid now p] at hfalse
      cases hfalse

/-- A platform on which every key selects the same shard, and not the first one. -/
def lastShard : Platform := { Platform.oneShard with hash := fun _ => 63 }

/-- A cache for ten keys has nothing in its last shard. -/
def small : Processor lastShard := (Server.start lastShard 10 stoppedClock [] []).processor

theorem untraced_rejected_small :
    (∀ line, ((small.executeLine line 0).1.ok = false → small.Untraced (small.executeLine line 0).2) ↔
      ((parseTcpCommand line).type = .set →
        lastShard.hash (parseTcpCommand line).key % 64 < 10)) ∧
    (∀ key value ttl,
      ((small.set key value ttl 0).1 = false → small.Untraced (small.set key value ttl 0).2) ↔
        lastShard.hash key % 64 < 10) :=
  untraced_rejected_iff (.start stoppedClock [] []) 0

/-- The client reads `ERR set failed`; after a restart with room for 64 keys the value is there. -/
theorem failed_set_restored :
    (¬ ∀ (M : Platform) (capacity : ℕ) (p : Processor M), p.Reachable capacity →
      ∀ (now : TimePoint) (line : Bytes), (p.executeLine line now).1.ok = false →
        p.Untraced (p.executeLine line now).2) ∧
    (small.executeLine (ascii "SET k v") 0).1 = { ok := false, payload := ascii "ERR set failed" } ∧
    ((Server.start lastShard 64 stoppedClock []
      (aofText (small.executeLine (ascii "SET k v") 0).2.queue)).processor.get (ascii "k") 0).1 =
        some (ascii "v") := by
  refine ⟨?_, by decide, by decide⟩
  intro h
  have hqueue := (h lastShard 10 small (.start stoppedClock [] []) 0 (ascii "SET k v") (by decide)).queue
  have hlogged : (small.executeLine (ascii "SET k v") 0).2.queue = [ascii "SET k v"] := by decide
  rw [hlogged] at hqueue
  cases hqueue

end Processor
end MiniRedis
