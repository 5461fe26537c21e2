import MiniRedis.Cache.Refinement
import MiniRedis.Lib.SharedParts

/-!
# What a critical section depends on

A critical section sees one shard and the counters. It never reads the counters: what it returns and
what it leaves of the shard is known from the shard, and to the counters it only adds. Except where
a load is registered or joined, it does not look at the table of loads in flight either. `Abreast`
compares two executions that start with the same map, list and capacity; there is one lemma for each
function, from the bottom up.

The public operations are treated as one section of their key's shard. That is what they are as long
as no other thread comes in between.
-/
namespace MiniRedis
variable {Key Value Exn : Type}

/-- A shard without its table of loads in flight. -/
structure ShardCore (Key Value : Type) where
  map : AList (fun _ : Key => Entry Value)
  lru : StableList Key
  capacity : ℕ

def Shard.core (sh : Shard Key Value) : ShardCore Key Value := ⟨sh.map, sh.lru, sh.capacity⟩

theorem Shard.eq_of_core {sh sh' : Shard Key Value} (hcore : sh.core = sh'.core)
    (hflight : sh.inflight = sh'.inflight) : sh = sh' := by
  obtain ⟨map, lru, inflight, capacity⟩ := sh
  obtain ⟨map', lru', inflight', capacity'⟩ := sh'
  cases hcore
  cases hflight
  rfl

/-- What the counters show. -/
structure Readings where
  tally : Tally
  memoryBytes : ℕ

def Counters.readings (c : Counters) : Readings := ⟨c.tally, c.memoryBytes.value⟩

/-- A change of one counter. -/
inductive CounterEvent
  | hit
  | miss
  | evicted
  | expired
  | addMemory (n : ℕ)
  | subMemory (n : ℕ)

namespace CounterEvent

/-- The code that makes the change. -/
def code : CounterEvent → Counters → Counters
  | .hit => Counters.hit
  | .miss => Counters.miss
  | .evicted => Counters.evicted
  | .expired => Counters.expired
  | .addMemory n => Counters.addMemory n
  | .subMemory n => Counters.subMemory n

def act : CounterEvent → Readings → Readings
  | .hit, c => { c with tally := c.tally.hit }
  | .miss, c => { c with tally := c.tally.miss }
  | .evicted, c => { c with tally := c.tally.evicted }
  | .expired, c => { c with tally := c.tally.expired 1 }
  | .addMemory n, c => { c with memoryBytes := (c.memoryBytes + n) % WordCounter.modulus }
  | .subMemory n, c =>
      { c with memoryBytes :=
          (c.memoryBytes + (WordCounter.modulus - n % WordCounter.modulus)) % WordCounter.modulus }

theorem readings_code (e : CounterEvent) (c : Counters) :
    (e.code c).readings = e.act c.readings := by
  cases e <;> rfl

/-- Changes of counters commute. -/
theorem act_comm (e e' : CounterEvent) (c : Readings) : e.act (e'.act c) = e'.act (e.act c) := by
  cases e <;> cases e' <;>
    simp only [act, Tally.hit, Tally.miss, Tally.evicted, Tally.expired, Nat.mod_add_mod] <;>
    congr 1 <;> rw [Nat.add_right_comm]

end CounterEvent

/-- What a thread holding a lock works on, as one part and the counters. -/
def lockedParts (Key Value : Type) :
    SharedParts Unit (Locked Key Value) (ShardCore Key Value) Readings CounterEvent where
  part := fun _ l => l.shard.core
  shared := fun l => l.counters.readings
  act := CounterEvent.act
  comm := CounterEvent.act_comm

namespace Locked

/-- Two executions, from `l` to `l'` and from `m` to `m'`, that have the same effect on the counters
and leave the same map, list and capacity, and the tables of loads as they were. -/
structure Abreast (l m l' m' : Locked Key Value) : Prop where
  coupled : (lockedParts Key Value).Coupled () l m l' m'
  left : l'.shard.inflight = l.shard.inflight
  right : m'.shard.inflight = m.shard.inflight

variable {l m l' m' l'' m'' : Locked Key Value}

theorem Abreast.core (h : Abreast l m l' m') : l'.shard.core = m'.shard.core := h.coupled.part

theorem Abreast.trans (h : Abreast l m l' m') (h' : Abreast l' m' l'' m'') :
    Abreast l m l'' m'' :=
  ⟨h.coupled.trans h'.coupled, h'.left.trans h.left, h'.right.trans h.right⟩

theorem Abreast.refl (h : l.shard.core = m.shard.core) : Abreast l m l m :=
  ⟨.refl h, rfl, rfl⟩

theorem abreast_count (h : l.shard.core = m.shard.core) (e : CounterEvent) :
    Abreast l m (l.count e.code) (m.count e.code) :=
  ⟨.event h e (e.readings_code _) (e.readings_code _), rfl, rfl⟩

theorem lookup_eq [DecidableEq Key] (h : l.shard.core = m.shard.core) (k : Key) :
    l.shard.map.lookup k = m.shard.map.lookup k :=
  congrArg (fun core : ShardCore Key Value => core.map.lookup k) h

variable [DecidableEq Key]

theorem abreast_touch (h : l.shard.core = m.shard.core) (k : Key) (e : Entry Value) :
    Abreast l m (l.touchLruLocked k e) (m.touchLruLocked k e) := by
  refine ⟨.silent ?_ rfl rfl, rfl, rfl⟩
  exact congrArg (fun core : ShardCore Key Value => ShardCore.mk
    (core.map.insert k { e with lruPos := (core.lru.spliceFront e.lruPos).begin })
    (core.lru.spliceFront e.lruPos) core.capacity) h

theorem abreast_erase (h : l.shard.core = m.shard.core) (k : Key) (e : Entry Value) :
    Abreast l m (l.eraseEntryLocked k e) (m.eraseEntryLocked k e) := by
  have hevent := (CounterEvent.subMemory e.bytes).readings_code
  refine ⟨.event ?_ (.subMemory e.bytes) (hevent _) (hevent _), rfl, rfl⟩
  exact congrArg (fun core : ShardCore Key Value => ShardCore.mk
    (core.map.erase k) (core.lru.erase e.lruPos) core.capacity) h

theorem abreast_expire (h : l.shard.core = m.shard.core) (k : Key) (e : Entry Value) :
    Abreast l m (l.expireLocked k e) (m.expireLocked k e) :=
  have herase := abreast_erase h k e
  herase.trans (abreast_count herase.core .expired)

omit [DecidableEq Key] in
theorem abreast_popBack (h : l.shard.core = m.shard.core) :
    Abreast l m { l with shard := { l.shard with lru := l.shard.lru.popBack } }
      { m with shard := { m.shard with lru := m.shard.lru.popBack } } := by
  refine ⟨.silent ?_ rfl rfl, rfl, rfl⟩
  exact congrArg (fun core : ShardCore Key Value => ShardCore.mk
    core.map core.lru.popBack core.capacity) h

/-! ## The eviction loop -/

/-- The body is defined in both executions or in none. -/
theorem abreast_evictBody (h : l.shard.core = m.shard.core) :
    (l.evictBody = none ∧ m.evictBody = none) ∨
      ∃ l' m', l.evictBody = some l' ∧ m.evictBody = some m' ∧ Abreast l m l' m' := by
  have hback : l.shard.lru.back? = m.shard.lru.back? :=
    congrArg (fun core : ShardCore Key Value => core.lru.back?) h
  unfold evictBody
  rw [← hback]
  cases l.shard.lru.back? with
  | none => exact .inl ⟨rfl, rfl⟩
  | some z =>
      refine .inr ⟨_, _, rfl, rfl, ?_⟩
      dsimp only
      rw [← lookup_eq h z]
      cases l.shard.map.lookup z with
      | none => exact abreast_popBack h
      | some e =>
          have herase := abreast_erase h z e
          exact herase.trans (abreast_count herase.core .evicted)

theorem abreast_evictLoop (fuel : ℕ) (h : l.shard.core = m.shard.core) :
    Abreast l m (evictLoop fuel l) (evictLoop fuel m) := by
  induction fuel generalizing l m with
  | zero => exact .refl h
  | succ fuel ih =>
      have hcap : l.shard.capacity = m.shard.capacity := congrArg ShardCore.capacity h
      have hcard : l.shard.map.card = m.shard.map.card :=
        congrArg (fun core : ShardCore Key Value => core.map.card) h
      simp only [evictLoop, hcap, hcard]
      split
      · rcases abreast_evictBody h with ⟨hl, hm⟩ | ⟨l', m', hl, hm, hbody⟩
        · simp only [hl, hm]
          exact .refl h
        · simp only [hl, hm]
          exact hbody.trans (ih hbody.core)
      · exact .refl h

theorem abreast_evictIfNeeded (h : l.shard.core = m.shard.core) :
    Abreast l m l.evictIfNeededLocked m.evictIfNeededLocked := by
  have hfuel : l.shard.map.card + l.shard.lru.toList.length
      = m.shard.map.card + m.shard.lru.toList.length :=
    congrArg (fun core : ShardCore Key Value => core.map.card + core.lru.toList.length) h
  rw [evictIfNeededLocked, evictIfNeededLocked, hfuel]
  exact abreast_evictLoop _ h

/-! ## The sections of the operations -/

variable (P : CacheParams Key Value)

theorem abreast_overwrite (h : l.shard.core = m.shard.core) (k : Key) (v : Value)
    (ttl : Option Millis) (now : TimePoint) (e : Entry Value) :
    Abreast l m (l.overwriteLocked P k v ttl now e) (m.overwriteLocked P k v ttl now e) := by
  have hsub := abreast_count h (.subMemory e.bytes)
  have htouch := hsub.trans (abreast_touch hsub.core k
    ⟨v, ttl.isSome, (ttl.map (expiryAt now)).getD 0, e.lruPos, P.estimateEntryBytes k v⟩)
  exact htouch.trans (abreast_count htouch.core (.addMemory (P.estimateEntryBytes k v)))

theorem abreast_insert (h : l.shard.core = m.shard.core) (k : Key) (v : Value)
    (ttl : Option Millis) (now : TimePoint) :
    Abreast l m (l.insertLocked P k v ttl now) (m.insertLocked P k v ttl now) := by
  have hevent := (CounterEvent.addMemory (P.estimateEntryBytes k v)).readings_code
  refine ⟨.event ?_ (.addMemory (P.estimateEntryBytes k v)) (hevent _) (hevent _), rfl, rfl⟩
  exact congrArg (fun core : ShardCore Key Value => ShardCore.mk
    (core.map.insert k ⟨v, ttl.isSome, (ttl.map (expiryAt now)).getD 0,
      (core.lru.pushFront k).begin, P.estimateEntryBytes k v⟩)
    (core.lru.pushFront k) core.capacity) h

theorem abreast_setImpl (h : l.shard.core = m.shard.core) (k : Key) (v : Value)
    (ttl : Option Millis) (now : TimePoint) :
    (l.setImpl P k v ttl now).1 = (m.setImpl P k v ttl now).1 ∧
      Abreast l m (l.setImpl P k v ttl now).2 (m.setImpl P k v ttl now).2 := by
  have hcap : l.shard.capacity = m.shard.capacity := congrArg ShardCore.capacity h
  simp only [setImpl, hcap, lookup_eq h k]
  split
  · exact ⟨rfl, .refl h⟩
  · cases m.shard.map.lookup k with
    | some e =>
        have hwrite := abreast_overwrite P h k v ttl now e
        exact ⟨rfl, hwrite.trans (abreast_evictIfNeeded hwrite.core)⟩
    | none =>
        have hwrite := abreast_insert P h k v ttl now
        exact ⟨rfl, hwrite.trans (abreast_evictIfNeeded hwrite.core)⟩

theorem abreast_getExclusive (h : l.shard.core = m.shard.core) (k : Key) (now : TimePoint) :
    (l.getExclusiveLocked k now).1 = (m.getExclusiveLocked k now).1 ∧
      Abreast l m (l.getExclusiveLocked k now).2 (m.getExclusiveLocked k now).2 := by
  simp only [getExclusiveLocked, lookup_eq h k]
  cases m.shard.map.lookup k with
  | none => exact ⟨rfl, abreast_count h .miss⟩
  | some e =>
      dsimp only
      split
      · have hexpire := abreast_expire h k e
        exact ⟨rfl, hexpire.trans (abreast_count hexpire.core .miss)⟩
      · have htouch := abreast_touch h k e
        exact ⟨rfl, htouch.trans (abreast_count htouch.core .hit)⟩

theorem abreast_del (h : l.shard.core = m.shard.core) (k : Key) :
    (l.delLocked k).1 = (m.delLocked k).1 ∧ Abreast l m (l.delLocked k).2 (m.delLocked k).2 := by
  simp only [delLocked, lookup_eq h k]
  cases m.shard.map.lookup k with
  | none => exact ⟨rfl, .refl h⟩
  | some e => exact ⟨rfl, abreast_erase h k e⟩

end Locked
end MiniRedis
