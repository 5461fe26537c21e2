import MiniRedis.Cache.Refinement

/-!
# What a call does to the recency lists

`ShardedCache.Rep` says which recency lists the shards of a cache represent. The theorems below
carry it over each call: a write changes the list of its key's shard, a `get` reorders that list or
removes an expired record from it, the reaper removes expired records. The last one says what a
snapshot shows of the lists.
-/
namespace MiniRedis
variable {Key Value : Type}

/-- The value a reader of the record gets. -/
def Record.read (now : TimePoint) (r : Record Value) : Option Value :=
  if r.expired now then none else some r.value

/-- The item shows the record: live, with what is left of its time, at least a millisecond. -/
structure SnapshotItem.Shows (now : TimePoint) (r : Record Value) (item : SnapshotItem Key Value) :
    Prop where
  value : item.value = r.value
  live : r.expired now = false
  ttl : item.ttlRemaining = r.deadline.map fun t => (wrap64 (t - now)).tdiv nsPerMs
  pos : ∀ d ∈ item.ttlRemaining, 0 < d

/-- What is left of a record's time fits in a `long long`. -/
theorem SnapshotItem.Shows.ttl_lt {now : TimePoint} {r : Record Value}
    {item : SnapshotItem Key Value} (h : item.Shows now r) {d : Millis}
    (hd : d ∈ item.ttlRemaining) : d < 2 ^ 63 := by
  rw [h.ttl] at hd
  obtain ⟨t, -, rfl⟩ := Option.map_eq_some_iff.mp hd
  exact tdiv_nsPerMs_lt (wrap64_lt _)

theorem shows_of_snapshotItem {now : TimePoint} {x : Sigma fun _ : Key => Entry Value}
    {item : SnapshotItem Key Value} (h : ShardedCache.snapshotItem now x = some item) :
    item.key = x.1 ∧ item.Shows now x.2.record := by
  unfold ShardedCache.snapshotItem at h
  split at h
  · cases h
  · next hlive =>
    have hexp : x.2.record.expired now = false := by
      rw [expired_record]
      exact Bool.eq_false_iff.mpr hlive
    split at h
    · next hexpiry =>
      dsimp only at h
      split at h
      · cases h
      · next hpos =>
        cases h
        refine ⟨rfl, rfl, hexp, by simp [Entry.record, hexpiry], ?_⟩
        intro d hd
        cases hd
        exact not_le.mp hpos
    · next hexpiry =>
      cases h
      exact ⟨rfl, rfl, hexp, by simp [Entry.record, hexpiry], by simp⟩

/-- The item that shows a record of a key in a snapshot, if there is one. -/
def Record.item? (now : TimePoint) (k : Key) (r : Record Value) : Option (SnapshotItem Key Value) :=
  if r.expired now then none
  else
    match r.deadline with
    | some t =>
        let remaining : Millis := (wrap64 (t - now)).tdiv nsPerMs
        if remaining ≤ 0 then none else some ⟨k, r.value, some remaining⟩
    | none => some ⟨k, r.value, none⟩

/-- The item of an entry depends on its record alone. -/
theorem snapshotItem_eq (now : TimePoint) (x : Sigma fun _ : Key => Entry Value) :
    ShardedCache.snapshotItem now x = x.2.record.item? now x.1 := by
  unfold ShardedCache.snapshotItem Record.item?
  rw [expired_record]
  cases hexpiry : x.2.hasExpiry <;> simp [Entry.record, hexpiry]

variable [DecidableEq Key] {P : CacheParams Key Value}

/-- What a `get` leaves: a live record at the front, an expired one gone. -/
def lookedUp (now : TimePoint) (k : Key) (xs : RecencyList Key (Record Value)) :
    RecencyList Key (Record Value) :=
  match xs.lookup k with
  | none => xs
  | some r => if r.expired now then xs.erase k else RecencyList.touch k xs

theorem lookup_of_lookedUp {now : TimePoint} {k j : Key} {r : Record Value}
    {xs : RecencyList Key (Record Value)} (h : (lookedUp now k xs).lookup j = some r) :
    xs.lookup j = some r := by
  unfold lookedUp at h
  split at h
  · exact h
  · split at h
    · exact (AList.lookup_of_lookup_erase h).2
    · rwa [RecencyList.lookup_touch] at h

theorem card_lookedUp_le (now : TimePoint) (k : Key) (xs : RecencyList Key (Record Value)) :
    (lookedUp now k xs).card ≤ xs.card := by
  unfold lookedUp
  split
  · exact le_rfl
  · split
    · exact AList.card_erase_le xs k
    · exact (RecencyList.card_touch k xs).le

theorem lookup_of_liveRecords {now : TimePoint} {k : Key} {r : Record Value}
    {xs : RecencyList Key (Record Value)} (h : (liveRecords now xs).lookup k = some r) :
    xs.lookup k = some r := by
  rw [liveRecords, AList.lookup_filterEntries] at h
  exact (Option.filter_eq_some_iff.mp h).1

/-- Replacing the list of a shard by a part of it adds no entry. -/
theorem lookup_of_update {n : ℕ} {xs : Fin n → RecencyList Key (Record Value)} {i : Fin n}
    {zs : RecencyList Key (Record Value)} (h : ∀ k r, zs.lookup k = some r → (xs i).lookup k = some r)
    (j : Fin n) (k : Key) (r : Record Value) (hr : (Function.update xs i zs j).lookup k = some r) :
    (xs j).lookup k = some r := by
  by_cases hj : j = i
  · subst hj
    rw [Function.update_self] at hr
    exact h k r hr
  · rwa [Function.update_of_ne hj] at hr

/-- A `get` changes no lookup if nothing is expired. -/
theorem lookup_lookedUp {now : TimePoint} {xs : RecencyList Key (Record Value)}
    (h : ∀ k r, xs.lookup k = some r → r.expired now = false) (k j : Key) :
    (lookedUp now k xs).lookup j = xs.lookup j := by
  cases hk : xs.lookup k with
  | none => simp only [lookedUp, hk]
  | some r => simp [lookedUp, hk, h k r hk, RecencyList.lookup_touch]

namespace ShardedCache.Rep
variable {c : ShardedCache P} {xs : Fin P.numShards → RecencyList Key (Record Value)}

theorem sim (R : c.Rep xs) : Sim c ⟨xs, c.counters.tally⟩ := ⟨R, rfl⟩

theorem card_le_capacityOf (R : c.Rep xs) (i : Fin P.numShards) :
    (xs i).card ≤ capacityOf P c.maxKeys i := (R.fits i).bounded

theorem set (R : c.Rep xs) (k : Key) (v : Value) (ttl : Option Millis) (now : TimePoint) :
    (c.set k v ttl now).2.Rep (Function.update xs (shardForKey P k)
      (RecencyList.put (capacityOf P c.maxKeys (shardForKey P k)) k (storedRecord v ttl now)
        (xs (shardForKey P k)))) := by
  have h := (R.sim.set k v ttl now).2.rep
  simp only [LruCache.set] at h
  split at h
  · next hzero =>
    have hempty := R.card_le_capacityOf (shardForKey P k)
    rw [Sim.cap] at hzero
    rw [hzero] at hempty ⊢
    rwa [RecencyList.put_zero hempty, Function.update_eq_self]
  · exact h

theorem set_ok (R : c.Rep xs) (k : Key) (v : Value) (ttl : Option Millis) (now : TimePoint) :
    (c.set k v ttl now).1 = decide (capacityOf P c.maxKeys (shardForKey P k) ≠ 0) := by
  rw [(R.sim.set k v ttl now).1, LruCache.set]
  split
  · next hzero => simp [hzero]
  · next hpos => simp [hpos]

/-- A `set` counts an eviction exactly when the record does not fit. -/
theorem evictions_set (R : c.Rep xs) (k : Key) (v : Value) (ttl : Option Millis) (now : TimePoint) :
    (c.set k v ttl now).2.counters.evictions = c.counters.evictions +
      if capacityOf P c.maxKeys (shardForKey P k) ≠ 0 ∧ capacityOf P c.maxKeys (shardForKey P k) <
        ((xs (shardForKey P k)).insert k (storedRecord v ttl now)).card then 1 else 0 := by
  have h := congrArg Tally.evictions (R.sim.set k v ttl now).2.tally
  refine h.trans ?_
  simp only [LruCache.set]
  split
  · next hzero => simp [hzero, Counters.tally]
  · next hpos => split <;> next hfull => simp [hpos, hfull, Counters.tally, Tally.evicted]

theorem del_ok (R : c.Rep xs) (k : Key) :
    (c.del k).1 = ((xs (shardForKey P k)).lookup k).isSome := by
  rw [(R.sim.del k).1]
  simp only [LruCache.del]
  split
  · next hk => rw [hk]; rfl
  · next r hk => rw [hk]; rfl

theorem evictions_del (R : c.Rep xs) (k : Key) :
    (c.del k).2.counters.evictions = c.counters.evictions := by
  refine (congrArg Tally.evictions (R.sim.del k).2.tally).trans ?_
  simp only [LruCache.del]
  split <;> rfl

/-- A `set` is no lookup. -/
theorem lookups_set (R : c.Rep xs) (k : Key) (v : Value) (ttl : Option Millis) (now : TimePoint) :
    (c.set k v ttl now).2.counters.hits = c.counters.hits ∧
      (c.set k v ttl now).2.counters.misses = c.counters.misses := by
  have htally := (R.sim.set k v ttl now).2.tally
  have hlru : ((LruCache.set (shardForKey P) (capacityOf P c.maxKeys) k v ttl now
        ⟨xs, c.counters.tally⟩).2.tally).hits = c.counters.hits ∧
      ((LruCache.set (shardForKey P) (capacityOf P c.maxKeys) k v ttl now
        ⟨xs, c.counters.tally⟩).2.tally).misses = c.counters.misses := by
    simp only [LruCache.set]
    split
    · exact ⟨rfl, rfl⟩
    · split <;> exact ⟨rfl, rfl⟩
  exact ⟨(congrArg Tally.hits htally).trans hlru.1, (congrArg Tally.misses htally).trans hlru.2⟩

theorem lookups_del (R : c.Rep xs) (k : Key) :
    (c.del k).2.counters.hits = c.counters.hits ∧
      (c.del k).2.counters.misses = c.counters.misses := by
  have htally := (R.sim.del k).2.tally
  have hlru : (LruCache.del (shardForKey P) k ⟨xs, c.counters.tally⟩).2.tally =
      c.counters.tally := by
    simp only [LruCache.del]
    split <;> rfl
  rw [hlru] at htally
  exact ⟨congrArg Tally.hits htally, congrArg Tally.misses htally⟩

/-- A `get` is counted by what it returns. -/
theorem counters_get (R : c.Rep xs) (k : Key) (now : TimePoint) :
    (c.get k now).2.counters.hits = c.counters.hits + (c.get k now).1.isSome.toNat ∧
      (c.get k now).2.counters.misses = c.counters.misses + (c.get k now).1.isNone.toNat ∧
      (c.get k now).2.counters.evictions = c.counters.evictions := by
  obtain ⟨hresult, hsim⟩ := R.sim.get k now
  have hlru : ∀ a : LruCache (Fin P.numShards) Key Value,
      (a.get (shardForKey P) k now).2.tally.hits =
          a.tally.hits + (a.get (shardForKey P) k now).1.isSome.toNat ∧
        (a.get (shardForKey P) k now).2.tally.misses =
          a.tally.misses + (a.get (shardForKey P) k now).1.isNone.toNat ∧
        (a.get (shardForKey P) k now).2.tally.evictions = a.tally.evictions := by
    intro a
    simp only [LruCache.get]
    split
    · exact ⟨rfl, rfl, rfl⟩
    · split <;> exact ⟨rfl, rfl, rfl⟩
  obtain ⟨hhits, hmisses, hevictions⟩ := hlru ⟨xs, c.counters.tally⟩
  rw [hresult]
  exact ⟨(congrArg Tally.hits hsim.tally).trans hhits,
    (congrArg Tally.misses hsim.tally).trans hmisses,
    (congrArg Tally.evictions hsim.tally).trans hevictions⟩

theorem lookups_cleanupShard (R : c.Rep xs) (now : TimePoint) (i : Fin P.numShards) :
    (c.cleanupShard now i).counters.hits = c.counters.hits ∧
      (c.cleanupShard now i).counters.misses = c.counters.misses :=
  ⟨congrArg Tally.hits (R.sim.cleanupShard now i).tally,
    congrArg Tally.misses (R.sim.cleanupShard now i).tally⟩

theorem lookups_cleanupExpired (R : c.Rep xs) (now : TimePoint) :
    (c.cleanupExpired now).counters.hits = c.counters.hits ∧
      (c.cleanupExpired now).counters.misses = c.counters.misses :=
  ⟨congrArg Tally.hits (R.sim.cleanupExpired now).tally,
    congrArg Tally.misses (R.sim.cleanupExpired now).tally⟩

theorem evictions_cleanupShard (R : c.Rep xs) (now : TimePoint) (i : Fin P.numShards) :
    (c.cleanupShard now i).counters.evictions = c.counters.evictions :=
  congrArg Tally.evictions (R.sim.cleanupShard now i).tally

theorem evictions_cleanupExpired (R : c.Rep xs) (now : TimePoint) :
    (c.cleanupExpired now).counters.evictions = c.counters.evictions :=
  congrArg Tally.evictions (R.sim.cleanupExpired now).tally

theorem del (R : c.Rep xs) (k : Key) :
    (c.del k).2.Rep
      (Function.update xs (shardForKey P k) ((xs (shardForKey P k)).erase k)) := by
  have h := (R.sim.del k).2.rep
  simp only [LruCache.del] at h
  split at h
  · next hnone =>
    have herase : (xs (shardForKey P k)).erase k = xs (shardForKey P k) := by
      apply AList.ext
      exact List.kerase_of_notMem_keys (AList.lookup_eq_none.mp hnone)
    rwa [herase, Function.update_eq_self]
  · exact h

theorem get_eq (R : c.Rep xs) (k : Key) (now : TimePoint) :
    (c.get k now).1 = ((xs (shardForKey P k)).lookup k).bind (Record.read now) := by
  rw [(R.sim.get k now).1]
  simp only [LruCache.get]
  split
  · next hk => rw [hk]; rfl
  · next r hk => rw [hk]; split <;> next hexp => simp [Record.read, hexp]

/-- A shard without capacity refuses a `set`. -/
theorem set_of_capacityOf_eq_zero (R : c.Rep xs) {k : Key}
    (hcap : capacityOf P c.maxKeys (shardForKey P k) = 0) (v : Value) (ttl : Option Millis)
    (now : TimePoint) : c.set k v ttl now = (false, c) := by
  have hzero : (c.locked (shardForKey P k)).shard.capacity = 0 :=
    (R.capacity (shardForKey P k)).trans hcap
  exact withLock_of_eq (by rw [Locked.setImpl, if_pos hzero])

/-- What a shard with capacity was given is there. -/
theorem lookup_set_self (R : c.Rep xs) {k : Key}
    (hcap : capacityOf P c.maxKeys (shardForKey P k) ≠ 0) (v : Value) (ttl : Option Millis)
    (now : TimePoint) : (Function.update xs (shardForKey P k)
      (RecencyList.put (capacityOf P c.maxKeys (shardForKey P k)) k (storedRecord v ttl now)
        (xs (shardForKey P k))) (shardForKey P k)).lookup k = some (storedRecord v ttl now) := by
  rw [Function.update_self]
  exact RecencyList.lookup_put_self _ _ _ (Nat.pos_of_ne_zero hcap) (R.card_le_capacityOf _)

/-- A shard without capacity has nothing to read. -/
theorem get_of_capacityOf_eq_zero (R : c.Rep xs) {k : Key}
    (hcap : capacityOf P c.maxKeys (shardForKey P k) = 0) (now : TimePoint) :
    (c.get k now).1 = none := by
  rw [R.get_eq, AList.eq_empty_of_card_le ((R.card_le_capacityOf (shardForKey P k)).trans hcap.le)]
  rfl

theorem get (R : c.Rep xs) (k : Key) (now : TimePoint) :
    (c.get k now).2.Rep (Function.update xs (shardForKey P k)
      (lookedUp now k (xs (shardForKey P k)))) := by
  have h := (R.sim.get k now).2.rep
  cases hk : (xs (shardForKey P k)).lookup k with
  | none =>
      simp only [LruCache.get, hk] at h
      simpa only [lookedUp, hk, Function.update_eq_self] using h
  | some r =>
      cases hexp : r.expired now with
      | true =>
          simp only [LruCache.get, hk, hexp, if_true] at h
          simpa only [lookedUp, hk, hexp, if_true] using h
      | false =>
          simp only [LruCache.get, hk, hexp, Bool.false_eq_true, if_false] at h
          simpa only [lookedUp, hk, hexp, Bool.false_eq_true, if_false] using h

theorem cleanupShard (R : c.Rep xs) (now : TimePoint) (i : Fin P.numShards) :
    (c.cleanupShard now i).Rep (Function.update xs i (liveRecords now (xs i))) :=
  (R.sim.cleanupShard now i).rep

theorem cleanupExpired (R : c.Rep xs) (now : TimePoint) :
    (c.cleanupExpired now).Rep fun i => liveRecords now (xs i) :=
  (R.sim.cleanupExpired now).rep

/-- An item of a snapshot shows a record. -/
theorem shows (R : c.Rep xs) {ord : HashOrder Key Value} {now : TimePoint}
    {item : SnapshotItem Key Value} (h : item ∈ c.snapshotItems ord now) :
    ∃ r, (xs (shardForKey P item.key)).lookup item.key = some r ∧ item.Shows now r := by
  simp only [snapshotItems, List.mem_flatMap, List.mem_filterMap] at h
  obtain ⟨i, -, x, hx, hitem⟩ := h
  obtain ⟨hkey, hshows⟩ := shows_of_snapshotItem hitem
  have hentry : (c.shards i).map.lookup x.1 = some x.2 :=
    AList.mem_lookup_iff.mpr ((ord.perm _).mem_iff.mp hx)
  have hhome := R.lookup_home hentry
  refine ⟨x.2.record, ?_, hshows⟩
  rw [hkey, hhome]
  exact (R.holds i).lookup_some hentry

/-- The active keys are those of the live records. -/
theorem activeKeyCount_eq (R : c.Rep xs) (now : TimePoint) :
    c.activeKeyCount now =
      ((List.finRange P.numShards).map fun i => (liveRecords now (xs i)).card).sum := by
  have hshard : ∀ i, (c.shards i).activeKeys now = (liveRecords now (xs i)).card := by
    intro i
    have hperm := ((R.holds i).records_perm.filter fun x => !x.2.expired now).length_eq
    rw [Shard.activeKeys, liveRecords, AList.card, AList.filterEntries, ← hperm, AList.mapValues,
      List.filter_map, List.length_map]
    simp only [Function.comp_def, expired_record]
  rw [activeKeyCount]
  exact congrArg List.sum (List.map_congr_left fun i _ => hshard i)

/-- The items of a shard are those of its records, in some order. -/
theorem items_perm (R : c.Rep xs) (ord : HashOrder Key Value) (now : TimePoint)
    (i : Fin P.numShards) :
    ((ord.order (c.shards i).map).filterMap (snapshotItem now)).Perm
      ((xs i).entries.filterMap fun x => x.2.item? now x.1) := by
  have hitems : (c.shards i).map.entries.filterMap (snapshotItem now) =
      ((c.shards i).map.mapValues Entry.record).entries.filterMap fun x => x.2.item? now x.1 := by
    rw [AList.mapValues, List.filterMap_map]
    exact List.filterMap_congr fun x _ => snapshotItem_eq now x
  refine ((ord.perm _).filterMap _).trans ?_
  rw [hitems]
  exact (R.holds i).records_perm.filterMap _

/-- The items that are taken from a shard are about its keys. -/
theorem items_filter_home (R : c.Rep xs) (ord : HashOrder Key Value) (now : TimePoint)
    (i j : Fin P.numShards) :
    ((ord.order (c.shards j).map).filterMap (snapshotItem now)).filter
      (fun item => shardForKey P item.key = i) =
        if j = i then (ord.order (c.shards i).map).filterMap (snapshotItem now) else [] := by
  have hhome : ∀ item ∈ (ord.order (c.shards j).map).filterMap (snapshotItem now),
      shardForKey P item.key = j := by
    intro item hitem
    obtain ⟨x, hx, hx'⟩ := List.mem_filterMap.mp hitem
    rw [(shows_of_snapshotItem hx').1]
    exact R.lookup_home (AList.mem_lookup_iff.mpr ((ord.perm _).mem_iff.mp hx))
  split
  · next hj =>
    subst hj
    exact List.filter_eq_self.mpr fun item hitem => decide_eq_true (hhome item hitem)
  · next hj =>
    refine List.filter_eq_nil_iff.mpr ?_
    intro item hitem
    simpa [hhome item hitem] using hj

/-- A snapshot has the live entries of one shard after those of another. -/
theorem snapshotItems_filter_home (R : c.Rep xs) (ord : HashOrder Key Value) (now : TimePoint)
    (i : Fin P.numShards) :
    (c.snapshotItems ord now).filter (fun item => shardForKey P item.key = i) =
      (ord.order (c.shards i).map).filterMap (snapshotItem now) := by
  have hpick : ∀ (js : List (Fin P.numShards)) (l : List (SnapshotItem Key Value)), js.Nodup →
      js.flatMap (fun j => if j = i then l else []) = if i ∈ js then l else [] := by
    intro js l hjs
    induction js with
    | nil => rfl
    | cons j js ih =>
        obtain ⟨hj, hjs⟩ := List.nodup_cons.mp hjs
        rw [List.flatMap_cons, ih hjs]
        by_cases hji : j = i
        · subst hji
          simp [hj]
        · have hij : ¬ i = j := fun h => hji h.symm
          simp [hji, hij]
  rw [snapshotItems, List.filter_flatMap]
  simp only [R.items_filter_home]
  rw [hpick _ _ (List.nodup_finRange _), if_pos (List.mem_finRange i)]

end ShardedCache.Rep
end MiniRedis
