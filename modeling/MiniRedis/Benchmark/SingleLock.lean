import MiniRedis.Cache.Lists
import MiniRedis.Lib.ListedMap
import MiniRedis.Lib.WhileLoop

/-!
# The single-lock baseline

The benchmark compares the cache with a simpler one, a map and a list under one mutex.
`SingleLockCache` is that class. It relinks the node of an overwritten key where the cache splices
it, evicts by popping the last node and erasing its key, counts nothing, and never fails to store.

Both implement the same recency list. Hence, one shard and the same capacity given, no sequence of
calls tells them apart, neither by a result nor by what they hold.
-/
namespace MiniRedis
variable {Key Value : Type}

/-- `SingleLockCache::Entry` -/
structure SingleLockEntry (Value : Type) where
  value : Value
  hasExpiry : Bool
  expiry : TimePoint
  lruPos : ℕ

structure SingleLockCache (Key Value : Type) where
  maxKeys : ℕ
  map : AList (fun _ : Key => SingleLockEntry Value)
  lru : StableList Key

/-- What a caller can observe of an entry. -/
def SingleLockEntry.record (e : SingleLockEntry Value) : Record Value :=
  ⟨e.value, if e.hasExpiry then some e.expiry else none⟩

/-- The condition on which `get` erases an entry. -/
def SingleLockEntry.expired (e : SingleLockEntry Value) (now : TimePoint) : Bool :=
  e.hasExpiry && decide (e.expiry ≤ now)

/-- A call that both caches understand. -/
inductive BaselineCall (Key Value : Type)
  | set (key : Key) (value : Value) (ttl : Option Millis)
  | get (key : Key)
  | del (key : Key)

/-- The call of the sharded cache. -/
def BaselineCall.op : BaselineCall Key Value → CacheOp Key Value
  | .set k v ttl => .set k v ttl
  | .get k => .get k
  | .del k => .del k

namespace SingleLockCache

/-- The constructor. -/
def construct (maxKeys : ℕ) : SingleLockCache Key Value := ⟨maxKeys, ∅, StableList.empty⟩

/-- `map_.size() > max_keys_` -/
def OverCapacity (c : SingleLockCache Key Value) : Prop := c.maxKeys < c.map.card

instance : @DecidablePred (SingleLockCache Key Value) OverCapacity :=
  fun c => inferInstanceAs (Decidable (c.maxKeys < c.map.card))

variable [DecidableEq Key]

/-- The body of the eviction loop. There is none when `lru_.back()` is undefined. -/
def evictBody (c : SingleLockCache Key Value) : Option (SingleLockCache Key Value) :=
  c.lru.back?.map fun old => { c with lru := c.lru.popBack, map := c.map.erase old }

/-- The eviction loop, given fuel for every node: each turn unlinks one. -/
def evict (c : SingleLockCache Key Value) : SingleLockCache Key Value :=
  WhileLoop.fuelled OverCapacity evictBody c.lru.toList.length c

/-- `set`, up to the eviction loop. -/
def write (key : Key) (value : Value) (ttl : Option Millis) (now : TimePoint)
    (c : SingleLockCache Key Value) : SingleLockCache Key Value :=
  match c.map.lookup key with
  | some e =>
      let lru := (c.lru.erase e.lruPos).pushFront key
      { c with
        lru := lru
        map := c.map.insert key
          ⟨value, ttl.isSome, (ttl.map (expiryAt now)).getD 0, lru.begin⟩ }
  | none =>
      let lru := c.lru.pushFront key
      { c with
        lru := lru
        map := c.map.insert key
          ⟨value, ttl.isSome, (ttl.map (expiryAt now)).getD 0, lru.begin⟩ }

def set (key : Key) (value : Value) (ttl : Option Millis) (now : TimePoint)
    (c : SingleLockCache Key Value) : Bool × SingleLockCache Key Value :=
  (true, (c.write key value ttl now).evict)

/-- Unlink an entry's node and erase the entry. -/
def remove (key : Key) (e : SingleLockEntry Value) (c : SingleLockCache Key Value) :
    SingleLockCache Key Value :=
  { c with lru := c.lru.erase e.lruPos, map := c.map.erase key }

def get (key : Key) (now : TimePoint) (c : SingleLockCache Key Value) :
    Option Value × SingleLockCache Key Value :=
  match c.map.lookup key with
  | none => (none, c)
  | some e =>
      if e.expired now then (none, c.remove key e)
      else
        let lru := c.lru.spliceFront e.lruPos
        (some e.value,
          { c with lru := lru, map := c.map.insert key { e with lruPos := lru.begin } })

def del (key : Key) (c : SingleLockCache Key Value) : Bool × SingleLockCache Key Value :=
  match c.map.lookup key with
  | none => (false, c)
  | some e => (true, c.remove key e)

/-- A call at a clock reading. -/
def answer : TimePoint × BaselineCall Key Value → SingleLockCache Key Value →
    CacheResult Value × SingleLockCache Key Value
  | (now, .set k v ttl), c => (.flag (c.set k v ttl now).1, (c.set k v ttl now).2)
  | (now, .get k), c => (.found (c.get k now).1, (c.get k now).2)
  | (_, .del k), c => (.flag (c.del k).1, (c.del k).2)

/-! ## What each function does to the recency list -/

/-- The map, the list and the iterators represent a recency list. -/
def Holds (c : SingleLockCache Key Value) (xs : RecencyList Key (Record Value)) : Prop :=
  ListedMap SingleLockEntry.record SingleLockEntry.lruPos c.map c.lru xs

variable {c : SingleLockCache Key Value} {xs : RecencyList Key (Record Value)} {k : Key}
  {e : SingleLockEntry Value}

omit [DecidableEq Key] in
theorem expired_record (e : SingleLockEntry Value) (now : TimePoint) :
    e.record.expired now = e.expired now := by
  cases h : e.hasExpiry <;>
    simp [SingleLockEntry.record, SingleLockEntry.expired, Record.expired, h]

omit [DecidableEq Key] in
theorem record_stored (v : Value) (ttl : Option Millis) (now : TimePoint) (pos : ℕ) :
    SingleLockEntry.record ⟨v, ttl.isSome, (ttl.map (expiryAt now)).getD 0, pos⟩
      = storedRecord v ttl now := by
  cases ttl <;> rfl

theorem holds_write (H : c.Holds xs) (k : Key) (v : Value) (ttl : Option Millis)
    (now : TimePoint) : (c.write k v ttl now).Holds (xs.insert k (storedRecord v ttl now)) := by
  unfold write
  split
  · next e he =>
    rw [← record_stored v ttl now ((c.lru.erase e.lruPos).pushFront k).begin]
    exact ListedMap.relink H he rfl
  · next hk =>
    rw [← record_stored v ttl now (c.lru.pushFront k).begin]
    exact ListedMap.pushFront H hk rfl

/-- One entry too many at most: the loop restores the bound. -/
theorem holds_evict (H : c.Holds xs) (hcard : xs.card ≤ c.maxKeys + 1) :
    c.evict.Holds (RecencyList.bound c.maxKeys xs) ∧ c.evict.maxKeys = c.maxKeys := by
  have hsize : c.map.card = xs.card := ListedMap.card_eq H
  by_cases hover : c.OverCapacity
  · have hlt : c.maxKeys < xs.card := hsize ▸ hover
    obtain ⟨z, e, hz, hback, he⟩ := ListedMap.exists_back H (Nat.zero_lt_of_lt hlt)
    let c' : SingleLockCache Key Value :=
      { c with lru := c.lru.popBack, map := c.map.erase z }
    have hbody : c.evictBody = some c' := by
      rw [evictBody, hback, Option.map_some]
    have H' : c'.Holds (xs.erase z) := ListedMap.popBack H hback
    have hexit : ¬ c'.OverCapacity := by
      have herase : c'.map.card + 1 = c.map.card := AList.card_erase he
      change ¬ c.maxKeys < c'.map.card
      omega
    have hloop : WhileLoop OverCapacity evictBody c [c] c' := .turn hover hbody (.exit hexit)
    have hfuel : [c].length ≤ c.lru.toList.length := by
      rw [H.order, AList.length_keys]
      exact Nat.one_le_of_lt hlt
    rw [evict, hloop.fuelled_eq hfuel, RecencyList.bound_of_lt hlt,
      RecencyList.dropLast_eq_erase hz]
    exact ⟨H', rfl⟩
  · have hloop : WhileLoop OverCapacity evictBody c [] c := .exit hover
    rw [evict, hloop.fuelled_eq (Nat.zero_le _), RecencyList.bound_of_le]
    · exact ⟨H, rfl⟩
    · exact hsize ▸ Nat.not_lt.mp hover

/-- `set` writes its record to the recency list and restores the bound. -/
theorem holds_set (H : c.Holds xs) (hcard : xs.card ≤ c.maxKeys) (k : Key) (v : Value)
    (ttl : Option Millis) (now : TimePoint) :
    (c.set k v ttl now).2.Holds (RecencyList.put c.maxKeys k (storedRecord v ttl now) xs) ∧
      (c.set k v ttl now).2.maxKeys = c.maxKeys := by
  have hkeys : (c.write k v ttl now).maxKeys = c.maxKeys := by
    unfold write
    split <;> rfl
  have hins := AList.card_insert_le xs k (storedRecord v ttl now)
  have hevict := holds_evict (holds_write H k v ttl now) (by omega)
  rwa [hkeys] at hevict

/-- `get` reads the record and leaves the list looked up. -/
theorem holds_get (H : c.Holds xs) (k : Key) (now : TimePoint) :
    (c.get k now).1 = (xs.lookup k).bind (Record.read now) ∧
      (c.get k now).2.Holds (lookedUp now k xs) ∧ (c.get k now).2.maxKeys = c.maxKeys := by
  unfold get
  split
  · next hk =>
    have hx : xs.lookup k = none := ListedMap.lookup_none H hk
    simp only [lookedUp, hx, Option.bind_none]
    exact ⟨trivial, H, trivial⟩
  · next e he =>
    have hx : xs.lookup k = some e.record := ListedMap.lookup_some H he
    simp only [lookedUp, hx, Option.bind_some, Record.read, expired_record]
    split
    · exact ⟨rfl, ListedMap.erase H he, rfl⟩
    · refine ⟨rfl, ?_, rfl⟩
      rw [RecencyList.touch, hx]
      let moved : SingleLockEntry Value :=
        { e with lruPos := (c.lru.spliceFront e.lruPos).begin }
      exact ListedMap.spliceFront H he (show moved.lruPos = _ from rfl)

theorem holds_del (H : c.Holds xs) (k : Key) :
    (c.del k).1 = (xs.lookup k).isSome ∧ (c.del k).2.Holds (xs.erase k) ∧
      (c.del k).2.maxKeys = c.maxKeys := by
  unfold del
  split
  · next hk =>
    have hx : xs.lookup k = none := ListedMap.lookup_none H hk
    have herase : xs.erase k = xs :=
      AList.ext (List.kerase_of_notMem_keys (AList.lookup_eq_none.mp hx))
    rw [hx, herase]
    exact ⟨rfl, H, rfl⟩
  · next e he =>
    rw [ListedMap.lookup_some H he]
    exact ⟨rfl, ListedMap.erase H he, rfl⟩

end SingleLockCache

/-! ## The two caches -/

variable [DecidableEq Key] {P : CacheParams Key Value}

/-- The same call of the sharded cache. -/
def ShardedCache.answer (x : TimePoint × BaselineCall Key Value) (c : ShardedCache P) :
    CacheResult Value × ShardedCache P := c.call x.1 x.2.op

/-- The shard and the baseline hold the same keys, values, deadlines and order of use. -/
structure SameContents (sh : Shard Key Value) (b : SingleLockCache Key Value) : Prop where
  order : sh.lru.toList = b.lru.toList
  records : ∀ k, (sh.map.lookup k).map Entry.record
    = (b.map.lookup k).map SingleLockEntry.record

/-- Both represent the same recency list, with the same bound. -/
def SameList (c : ShardedCache P) (b : SingleLockCache Key Value) : Prop :=
  b.maxKeys = c.maxKeys ∧ ∃ xs : Fin P.numShards → RecencyList Key (Record Value),
    c.Rep xs ∧ ∀ i, b.Holds (xs i)

namespace SameList
variable {c : ShardedCache P} {b : SingleLockCache Key Value}

theorem sameContents (h : SameList c b) (i : Fin P.numShards) : SameContents (c.shards i) b := by
  obtain ⟨-, xs, R, H⟩ := h
  refine ⟨?_, fun k => ?_⟩
  · rw [(R.holds i).order, (H i).order]
  · rw [(R.holds i).records, (H i).records]

theorem construct (maxKeys : ℕ) :
    SameList (ShardedCache.construct P maxKeys) (SingleLockCache.construct maxKeys) :=
  ⟨rfl, _, .construct maxKeys, fun _ => ListedMap.empty⟩

omit [DecidableEq Key] in
/-- A single shard has the whole capacity. -/
theorem capacityOf_eq (hone : P.numShards = 1) (maxKeys : ℕ) (i : Fin P.numShards) :
    capacityOf P maxKeys i = maxKeys := by
  simp [capacityOf, hone, Nat.mod_one]

/-- What holds of the list of one shard holds of the list of the only shard. -/
theorem forall_update (hone : P.numShards = 1)
    {xs : Fin P.numShards → RecencyList Key (Record Value)} {i : Fin P.numShards}
    {ys : RecencyList Key (Record Value)} (H : b.Holds ys) (j : Fin P.numShards) :
    b.Holds (Function.update xs i ys j) := by
  obtain rfl : j = i := Fin.ext (by omega)
  rwa [Function.update_self]

/-- **One call.** Both caches answer the same and represent the same list again. -/
theorem answer (hone : P.numShards = 1) (hpos : 1 ≤ c.maxKeys) (h : SameList c b)
    (x : TimePoint × BaselineCall Key Value) :
    (c.answer x).1 = (b.answer x).1 ∧ SameList (c.answer x).2 (b.answer x).2 := by
  obtain ⟨now, op⟩ := x
  obtain ⟨hkeys, xs, R, H⟩ := h
  have hkept : (c.call now op.op).2.maxKeys = c.maxKeys := ShardedCache.maxKeys_call now op.op c
  cases op with
  | set k v ttl =>
      have hcap := capacityOf_eq hone c.maxKeys (shardForKey P k)
      have hcard := R.card_le_capacityOf (shardForKey P k)
      rw [hcap, ← hkeys] at hcard
      obtain ⟨H', hb⟩ := SingleLockCache.holds_set (H (shardForKey P k)) hcard k v ttl now
      have hok : (c.set k v ttl now).1 = true := by
        rw [R.set_ok, hcap]
        simpa using Nat.ne_of_gt hpos
      have R' := R.set k v ttl now
      rw [hcap, ← hkeys] at R'
      exact ⟨congrArg CacheResult.flag hok, (hb.trans hkeys).trans hkept.symm, _, R',
        forall_update hone H'⟩
  | get k =>
      obtain ⟨hval, H', hb⟩ := SingleLockCache.holds_get (H (shardForKey P k)) k now
      exact ⟨congrArg CacheResult.found ((R.get_eq k now).trans hval.symm),
        (hb.trans hkeys).trans hkept.symm, _, R.get k now, forall_update hone H'⟩
  | del k =>
      obtain ⟨hok, H', hb⟩ := SingleLockCache.holds_del (H (shardForKey P k)) k
      exact ⟨congrArg CacheResult.flag ((R.del_ok k).trans hok.symm),
        (hb.trans hkeys).trans hkept.symm, _, R.del k, forall_update hone H'⟩

end SameList

/-- **The cache agrees with the baseline.** A cache of one shard and the single-lock cache, of the
same capacity, answer every sequence of calls the same and hold the same keys, values, deadlines and
order of use afterwards, hence after each call. -/
theorem singleLock_agrees (P : CacheParams Key Value) (hone : P.numShards = 1) {maxKeys : ℕ}
    (hpos : 1 ≤ maxKeys) (calls : List (TimePoint × BaselineCall Key Value)) :
    Transition.outputs ShardedCache.answer calls (ShardedCache.construct P maxKeys)
      = Transition.outputs SingleLockCache.answer calls (SingleLockCache.construct maxKeys) ∧
    ∀ i, SameContents
      ((Transition.final ShardedCache.answer calls (ShardedCache.construct P maxKeys)).shards i)
      (Transition.final SingleLockCache.answer calls (SingleLockCache.construct maxKeys)) := by
  let S (c : ShardedCache P) (b : SingleLockCache Key Value) : Prop :=
    1 ≤ c.maxKeys ∧ SameList c b
  have hstep : ∀ (x : TimePoint × BaselineCall Key Value) (c : ShardedCache P)
      (b : SingleLockCache Key Value), S c b →
      (c.answer x).1 = (b.answer x).1 ∧ S (c.answer x).2 (b.answer x).2 := by
    rintro x c b ⟨hc, h⟩
    obtain ⟨hout, hsame⟩ := h.answer hone hc x
    exact ⟨hout, hc.trans_eq (ShardedCache.maxKeys_call x.1 x.2.op c).symm, hsame⟩
  obtain ⟨houts, -, hsame⟩ :=
    Transition.outputs_eq_of_simulation hstep calls ⟨hpos, SameList.construct maxKeys⟩
  exact ⟨houts, hsame.sameContents⟩

/-- One shard, and keys that are their own hash. -/
def CacheParams.oneShard : CacheParams ℕ ℕ :=
  { CacheParams.twoShards with numShards := 1, numShards_pos := Nat.one_pos }

/-- Room for one key: storing a second one evicts the first. -/
theorem singleLock_agrees_oneShard :
    Transition.outputs ShardedCache.answer
        [(0, .set 1 5 none), (1, .set 2 6 (some 1)), (2, .get 1), (3, .get 2)]
        (ShardedCache.construct CacheParams.oneShard 1)
      = [.flag true, .flag true, .found none, .found (some 6)] := by
  rw [(singleLock_agrees CacheParams.oneShard rfl le_rfl _).1]
  decide

end MiniRedis
