import MiniRedis.Cache.ShardLocal
import MiniRedis.Concurrency.System

/-!
# Operations on different shards commute

`perform` is one call from start to end, made while no other call is under way. It may still find a
load of an earlier call in flight. What it then gets from that load's future, `futures` says; there
is no result if the future is not ready, and the call waits.

A call works on its key's shard alone. By the rule for separate parts, two calls for keys of
different shards can be swapped.
-/
namespace MiniRedis

/-- A call, with what its loader does when it has one: return a value or throw. -/
inductive Operation (Key Value Exn : Type)
  | set (key : Key) (value : Value) (ttl : Option Millis)
  | get (key : Key)
  | del (key : Key)
  | getOrCompute (key : Key) (loader : Except Exn Value) (ttl : Option Millis)

variable {Key Value Exn : Type}

def Operation.key : Operation Key Value Exn → Key
  | .set k _ _ => k
  | .get k => k
  | .del k => k
  | .getOrCompute k _ _ => k

variable [DecidableEq Key] {P : CacheParams Key Value}

namespace ShardedCache

/-- The owner of a record calls its loader, stores the value if there is one, and takes the record
off the table. -/
def ownLoad (key : Key) (loader : Except Exn Value) (ttl : Option Millis) (now : TimePoint)
    (c : ShardedCache P) : ShardedCache P :=
  let c := match loader with
    | .ok v => (c.set key v ttl now).2
    | .error _ => c
  (c.withLock (shardForKey P key) fun l => ((), l.unregisterLocked key)).2

/-- `get_or_compute` after its first lookup has missed. -/
def computeMissed (key : Key) (loader : Except Exn Value) (ttl : Option Millis) (now : TimePoint)
    (futures : RecordId → Option (Except Exn Value)) (fresh : RecordId) (c : ShardedCache P) :
    Option (Except Exn Value) × ShardedCache P :=
  let r := c.withLock (shardForKey P key) (Locked.recheckLocked key now fresh)
  match r.1 with
  | .hit v => (some (.ok v), r.2)
  | .joined record => (futures record, r.2)
  | .owner _ => (some loader, r.2.ownLoad key loader ttl now)

/-- `get_or_compute`, for a caller whose loader does `loader` and whose new record is `fresh`. -/
def getOrCompute (key : Key) (loader : Except Exn Value) (ttl : Option Millis) (now : TimePoint)
    (futures : RecordId → Option (Except Exn Value)) (fresh : RecordId) (c : ShardedCache P) :
    Option (Except Exn Value) × ShardedCache P :=
  let r := c.get key now
  match r.1 with
  | some v => (some (.ok v), r.2)
  | none => r.2.computeMissed key loader ttl now futures fresh

/-- One call, at a clock reading. -/
def perform (now : TimePoint) (futures : RecordId → Option (Except Exn Value)) :
    Operation Key Value Exn → RecordId → ShardedCache P →
      Option (Result Value Exn) × ShardedCache P
  | .set k v ttl, _, c => (some (.stored (c.set k v ttl now).1), (c.set k v ttl now).2)
  | .get k, _, c => (some (.got (c.get k now).1), (c.get k now).2)
  | .del k, _, c => (some (.deleted (c.del k).1), (c.del k).2)
  | .getOrCompute k loader ttl, fresh, c =>
      let r := c.getOrCompute k loader ttl now futures fresh
      (r.1.map .computed, r.2)

/-- Two calls in turn: both results, and the cache after the second. -/
def performTwo (now : TimePoint) (futures : RecordId → Option (Except Exn Value))
    (first second : Operation Key Value Exn) (r r' : RecordId) (c : ShardedCache P) :
    Option (Result Value Exn) × Option (Result Value Exn) × ShardedCache P :=
  let x := c.perform now futures first r
  let y := x.2.perform now futures second r'
  (x.1, y.1, y.2)

end ShardedCache

/-! ## A call as one section -/

namespace Locked

/-- What `get_or_compute` does after its second lookup. -/
def finishLocked (P : CacheParams Key Value) (key : Key) (loader : Except Exn Value)
    (ttl : Option Millis) (now : TimePoint) (futures : RecordId → Option (Except Exn Value))
    (r : Recheck Value × Locked Key Value) : Option (Except Exn Value) × Locked Key Value :=
  match r.1 with
  | .hit v => (some (.ok v), r.2)
  | .joined record => (futures record, r.2)
  | .owner _ =>
      let l := match loader with
        | .ok v => (r.2.setImpl P key v ttl now).2
        | .error _ => r.2
      (some loader, l.unregisterLocked key)

def getOrComputeLocked (P : CacheParams Key Value) (key : Key) (loader : Except Exn Value)
    (ttl : Option Millis) (now : TimePoint) (futures : RecordId → Option (Except Exn Value))
    (fresh : RecordId) (l : Locked Key Value) : Option (Except Exn Value) × Locked Key Value :=
  let r := l.getExclusiveLocked key now
  match r.1 with
  | some v => (some (.ok v), r.2)
  | none => finishLocked P key loader ttl now futures (r.2.recheckLocked key now fresh)

def performLocked (P : CacheParams Key Value) (now : TimePoint)
    (futures : RecordId → Option (Except Exn Value)) :
    Operation Key Value Exn → RecordId → Locked Key Value →
      Option (Result Value Exn) × Locked Key Value
  | .set k v ttl, _, l => (some (.stored (l.setImpl P k v ttl now).1), (l.setImpl P k v ttl now).2)
  | .get k, _, l => (some (.got (l.getExclusiveLocked k now).1), (l.getExclusiveLocked k now).2)
  | .del k, _, l => (some (.deleted (l.delLocked k).1), (l.delLocked k).2)
  | .getOrCompute k loader ttl, fresh, l =>
      let r := l.getOrComputeLocked P k loader ttl now futures fresh
      (r.1.map .computed, r.2)

end Locked

namespace ShardedCache

omit [DecidableEq Key] in
@[simp] theorem locked_unlock (i : Fin P.numShards) (l : Locked Key Value) (c : ShardedCache P) :
    (c.unlock i l).locked i = l := by
  simp [locked, unlock]

omit [DecidableEq Key] in
@[simp] theorem unlock_unlock (i : Fin P.numShards) (l l' : Locked Key Value)
    (c : ShardedCache P) : (c.unlock i l).unlock i l' = c.unlock i l' := by
  simp [unlock]

/-- Called alone, `get_or_compute` is one section of its key's shard. -/
theorem getOrCompute_eq_withLock (k : Key) (loader : Except Exn Value) (ttl : Option Millis)
    (now : TimePoint) (futures : RecordId → Option (Except Exn Value)) (fresh : RecordId)
    (c : ShardedCache P) :
    c.getOrCompute k loader ttl now futures fresh =
      c.withLock (shardForKey P k) (Locked.getOrComputeLocked P k loader ttl now futures fresh) := by
  unfold getOrCompute Locked.getOrComputeLocked
  rw [get_eq_withLock]
  simp only [withLock]
  cases (Locked.getExclusiveLocked k now (c.locked (shardForKey P k))).1 with
  | some v => rfl
  | none =>
      simp only [computeMissed, withLock, locked_unlock, Locked.finishLocked, unlock_unlock]
      split
      · rfl
      · rfl
      · cases loader <;> simp [ownLoad, set, withLock]

theorem perform_eq_withLock (now : TimePoint) (futures : RecordId → Option (Except Exn Value))
    (op : Operation Key Value Exn) (fresh : RecordId) (c : ShardedCache P) :
    c.perform now futures op fresh =
      c.withLock (shardForKey P op.key) (Locked.performLocked P now futures op fresh) := by
  cases op with
  | set k v ttl => rfl
  | get k => simp only [perform, get_eq_withLock]; rfl
  | del k => rfl
  | getOrCompute k loader ttl => simp only [perform, getOrCompute_eq_withLock]; rfl

end ShardedCache

/-! ## What a call depends on -/

namespace Locked

/-- Two executions that have the same effect on the counters and leave the same shard. -/
structure Together (l m l' m' : Locked Key Value) : Prop where
  coupled : (lockedParts Key Value).Coupled () l m l' m'
  inflight : l'.shard.inflight = m'.shard.inflight

variable {l m l' m' l'' m'' : Locked Key Value}

omit [DecidableEq Key] in
theorem Together.core (h : Together l m l' m') : l'.shard.core = m'.shard.core := h.coupled.part

omit [DecidableEq Key] in
theorem Together.trans (h : Together l m l' m') (h' : Together l' m' l'' m'') :
    Together l m l'' m'' :=
  ⟨h.coupled.trans h'.coupled, h'.inflight⟩

omit [DecidableEq Key] in
/-- What leaves the tables of loads alone leaves equal ones equal. -/
theorem Abreast.together (h : Abreast l m l' m') (hflight : l.shard.inflight = m.shard.inflight) :
    Together l m l' m' :=
  ⟨h.coupled, h.left.trans (hflight.trans h.right.symm)⟩

/-- A load of the key is in flight, under the given record. -/
def withFlight (k : Key) (r : RecordId) (l : Locked Key Value) : Locked Key Value :=
  { l with shard := { l.shard with inflight := l.shard.inflight.insert k r } }

theorem register_eq (k : Key) (r : RecordId) (l : Locked Key Value) :
    recheckLocked.register k r l =
      match l.shard.inflight.lookup k with
      | some record => (.joined record, l)
      | none => (.owner r, l.withFlight k r) := rfl

/-- Between the registration of a load and its end nothing depends on the record. -/
theorem together_unregister {k : Key} {r r' : RecordId}
    (h : Abreast (l.withFlight k r) (m.withFlight k r') l' m')
    (hcore : l.shard.core = m.shard.core) (hflight : l.shard.inflight = m.shard.inflight) :
    Together l m (l'.unregisterLocked k) (m'.unregisterLocked k) := by
  have herase : ∀ (flights : AList fun _ : Key => RecordId) (r : RecordId),
      (flights.insert k r).erase k = flights.erase k :=
    fun flights r => AList.ext (List.kerase_cons_eq rfl)
  refine ⟨?_, ?_⟩
  · have hregister : (lockedParts Key Value).Coupled () l m (l.withFlight k r)
        (m.withFlight k r') := .silent hcore rfl rfl
    exact (hregister.trans h.coupled).trans (.silent h.core rfl rfl)
  · change l'.shard.inflight.erase k = m'.shard.inflight.erase k
    rw [h.left, h.right]
    exact (herase _ r).trans (hflight ▸ (herase _ r').symm)

variable (P : CacheParams Key Value) (k : Key) (loader : Except Exn Value) (ttl : Option Millis)
  (now : TimePoint) (futures : RecordId → Option (Except Exn Value)) (r r' : RecordId)

/-- A missing key: the call joins a load or makes one of its own. Which record it used for the
latter does not show afterwards. -/
theorem together_register (h : l.shard.core = m.shard.core)
    (hflight : l.shard.inflight = m.shard.inflight) :
    (finishLocked P k loader ttl now futures (recheckLocked.register k r l)).1 =
      (finishLocked P k loader ttl now futures (recheckLocked.register k r' m)).1 ∧
    Together l m (finishLocked P k loader ttl now futures (recheckLocked.register k r l)).2
      (finishLocked P k loader ttl now futures (recheckLocked.register k r' m)).2 := by
  rw [register_eq, register_eq, hflight]
  cases m.shard.inflight.lookup k with
  | some record => exact ⟨rfl, .refl h, hflight⟩
  | none =>
      have hregister : (l.withFlight k r).shard.core = (m.withFlight k r').shard.core := h
      refine ⟨rfl, ?_⟩
      cases loader with
      | ok v => exact together_unregister (abreast_setImpl P hregister k v ttl now).2 h hflight
      | error exn => exact together_unregister (.refl hregister) h hflight

theorem together_recheck (h : l.shard.core = m.shard.core)
    (hflight : l.shard.inflight = m.shard.inflight) :
    (finishLocked P k loader ttl now futures (l.recheckLocked k now r)).1 =
      (finishLocked P k loader ttl now futures (m.recheckLocked k now r')).1 ∧
    Together l m (finishLocked P k loader ttl now futures (l.recheckLocked k now r)).2
      (finishLocked P k loader ttl now futures (m.recheckLocked k now r')).2 := by
  unfold recheckLocked
  rw [lookup_eq h k]
  cases m.shard.map.lookup k with
  | none => exact together_register P k loader ttl now futures r r' h hflight
  | some e =>
      dsimp only
      split
      · have hexpire := (abreast_expire h k e).together hflight
        obtain ⟨hres, hrest⟩ :=
          together_register P k loader ttl now futures r r' hexpire.core hexpire.inflight
        exact ⟨hres, hexpire.trans hrest⟩
      · have htouch := abreast_touch h k e
        exact ⟨rfl, (htouch.trans (abreast_count htouch.core .hit)).together hflight⟩

theorem together_getOrCompute (h : l.shard = m.shard) :
    (l.getOrComputeLocked P k loader ttl now futures r).1 =
      (m.getOrComputeLocked P k loader ttl now futures r').1 ∧
    Together l m (l.getOrComputeLocked P k loader ttl now futures r).2
      (m.getOrComputeLocked P k loader ttl now futures r').2 := by
  obtain ⟨hres, hget⟩ := abreast_getExclusive (congrArg Shard.core h) k now
  have hget' := hget.together (congrArg Shard.inflight h)
  unfold getOrComputeLocked
  dsimp only
  rw [hres]
  cases (m.getExclusiveLocked k now).1 with
  | some v => exact ⟨rfl, hget'⟩
  | none =>
      obtain ⟨hres', hrest⟩ :=
        together_recheck P k loader ttl now futures r r' hget'.core hget'.inflight
      exact ⟨hres', hget'.trans hrest⟩

/-- **A call depends on its key's shard alone.** -/
theorem together_perform (op : Operation Key Value Exn) (h : l.shard = m.shard) :
    (l.performLocked P now futures op r).1 = (m.performLocked P now futures op r').1 ∧
    Together l m (l.performLocked P now futures op r).2 (m.performLocked P now futures op r').2 := by
  have hcore : l.shard.core = m.shard.core := congrArg Shard.core h
  have hflight : l.shard.inflight = m.shard.inflight := congrArg Shard.inflight h
  cases op with
  | set k v ttl =>
      obtain ⟨hres, hset⟩ := abreast_setImpl P hcore k v ttl now
      exact ⟨congrArg (some ∘ Result.stored) hres, hset.together hflight⟩
  | get k =>
      obtain ⟨hres, hget⟩ := abreast_getExclusive hcore k now
      exact ⟨congrArg (some ∘ Result.got) hres, hget.together hflight⟩
  | del k =>
      obtain ⟨hres, hdel⟩ := abreast_del hcore k
      exact ⟨congrArg (some ∘ Result.deleted) hres, hdel.together hflight⟩
  | getOrCompute k loader ttl =>
      obtain ⟨hres, hcompute⟩ := together_getOrCompute P k loader ttl now futures r r' h
      exact ⟨congrArg (Option.map Result.computed) hres, hcompute⟩

end Locked

/-! ## Calls on different shards -/

/-- The cache as its shards and the counters. -/
def cacheParts (P : CacheParams Key Value) :
    SharedParts (Fin P.numShards) (ShardedCache P) (Shard Key Value) Readings CounterEvent where
  part := fun i c => c.shards i
  shared := fun c => c.counters.readings
  act := CounterEvent.act
  comm := CounterEvent.act_comm

namespace ShardedCache

/-- A call works on its key's shard. -/
theorem localTo_perform (now : TimePoint) (futures : RecordId → Option (Except Exn Value))
    (op : Operation Key Value Exn) :
    (cacheParts P).LocalTo (shardForKey P op.key) fun fresh c => c.perform now futures op fresh where
  blind := by
    intro r r' c d hpart
    obtain ⟨hres, htogether⟩ := Locked.together_perform (l := c.locked (shardForKey P op.key))
      (m := d.locked (shardForKey P op.key)) P now futures r r' op hpart
    simp only [perform_eq_withLock]
    refine ⟨hres, ?_, htogether.coupled.events⟩
    simp only [cacheParts, snd_withLock, shards_unlock, Function.update_self]
    exact Shard.eq_of_core htogether.core htogether.inflight
  frame := by
    intro r c j hj
    simp only [perform_eq_withLock, cacheParts, snd_withLock, shards_unlock,
      Function.update_of_ne hj]

/-- The same contents in every shard, in the same order of use, and the same counters. -/
structure SameState (c d : ShardedCache P) : Prop where
  shards : ∀ i, c.shards i = d.shards i
  hits : c.counters.hits = d.counters.hits
  misses : c.counters.misses = d.counters.misses
  evictions : c.counters.evictions = d.counters.evictions
  expirations : c.counters.expirations = d.counters.expirations
  memoryUsageBytes : c.memoryUsageBytes = d.memoryUsageBytes

/-- **Operations on different shards commute.** In either order the two calls have the same results,
and the cache is the same afterwards. This holds in every state of the cache and of the loads in
flight, and whichever records the calls create. -/
theorem perform_commute {a b : Operation Key Value Exn}
    (hshards : shardForKey P a.key ≠ shardForKey P b.key) (c : ShardedCache P) (now : TimePoint)
    (futures : RecordId → Option (Except Exn Value)) (r₁ r₂ s₁ s₂ : RecordId) :
    (c.performTwo now futures a b r₁ s₁).1 = (c.performTwo now futures b a s₂ r₂).2.1 ∧
    (c.performTwo now futures a b r₁ s₁).2.1 = (c.performTwo now futures b a s₂ r₂).1 ∧
    SameState (c.performTwo now futures a b r₁ s₁).2.2
      (c.performTwo now futures b a s₂ r₂).2.2 := by
  obtain ⟨ha, hb, hsame⟩ := (localTo_perform now futures a).commute (localTo_perform now futures b)
    hshards c r₁ r₂ s₁ s₂
  have htally := congrArg Readings.tally hsame.shared
  exact ⟨ha, hb, hsame.part, congrArg Tally.hits htally, congrArg Tally.misses htally,
    congrArg Tally.evictions htally, congrArg Tally.expirations htally,
    congrArg Readings.memoryBytes hsame.shared⟩

/-- A `set` and a load, in a cache with room for one key in each shard. -/
theorem perform_commute_twoShards :
    let c := construct CacheParams.twoShards 2
    let a : Operation ℕ ℕ Unit := .set 2 7 none
    let b : Operation ℕ ℕ Unit := .getOrCompute 3 (.ok 5) (some 1)
    (c.performTwo 0 (fun _ => none) a b 0 1).2.1 = some (.computed (.ok 5)) ∧
      SameState (c.performTwo 0 (fun _ => none) a b 0 1).2.2
        (c.performTwo 0 (fun _ => none) b a 0 1).2.2 := by
  intro c a b
  obtain ⟨-, hb, hsame⟩ := perform_commute (a := a) (b := b) (by decide) c 0 (fun _ => none) 0 1 1 0
  refine ⟨?_, hsame⟩
  rw [hb]
  decide

end ShardedCache
end MiniRedis
