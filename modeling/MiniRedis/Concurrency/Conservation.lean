import MiniRedis.Cache.Lists
import MiniRedis.Concurrency.LoadOnce

/-!
# No entry gets lost

An entry comes in through the insert branch of `set_impl` and goes by a `del`, by eviction or
because its deadline has passed. Each section changes the number of stored entries by exactly what
it reports and counts, so the books balance after every run.
-/
namespace MiniRedis
variable {Key Value Exn : Type}

/-- The thread has just returned from a `del` that found its key. -/
def Pc.deleted : Pc Key Value Exn → Bool
  | .done (.deleted ok) _ => ok
  | _ => false

/-- The entries stored over all shards. -/
def ShardedCache.entryCount {P : CacheParams Key Value} (c : ShardedCache P) : ℕ :=
  ∑ i, (c.shards i).map.card

/-- The entries of a shard, and all that have been evicted or have expired. -/
def Locked.account (s : Locked Key Value) : ℕ :=
  s.shard.map.card + s.counters.evictions + s.counters.expirations

/-- The entries of all shards, and all that have been evicted or have expired. -/
def ShardedCache.account {P : CacheParams Key Value} (c : ShardedCache P) : ℕ :=
  c.entryCount + c.counters.evictions + c.counters.expirations

theorem ShardedCache.account_unlock {P : CacheParams Key Value} (i : Fin P.numShards)
    (l : Locked Key Value) (c : ShardedCache P) :
    (c.unlock i l).account + (c.locked i).account = c.account + l.account := by
  have hrest : ∑ j ∈ Finset.univ.erase i, ((c.unlock i l).shards j).map.card =
      ∑ j ∈ Finset.univ.erase i, (c.shards j).map.card := by
    refine Finset.sum_congr rfl fun j hj => ?_
    rw [shards_unlock, Function.update_of_ne (Finset.ne_of_mem_erase hj)]
  have hafter : (c.unlock i l).entryCount =
      l.shard.map.card + ∑ j ∈ Finset.univ.erase i, (c.shards j).map.card := by
    rw [entryCount, ← Finset.add_sum_erase _ _ (Finset.mem_univ i), hrest, shards_unlock,
      Function.update_self]
  have hbefore : c.entryCount =
      (c.shards i).map.card + ∑ j ∈ Finset.univ.erase i, (c.shards j).map.card :=
    (Finset.add_sum_erase _ _ (Finset.mem_univ i)).symm
  simp only [account, Locked.account, hafter, hbefore, counters_unlock, shard_locked,
    counters_locked]
  omega

variable [DecidableEq Key] {P : CacheParams Key Value} {maxKeys : ℕ}

/-! ## The account of a section -/

namespace Locked
variable {s : Locked Key Value} {xs : RecencyList Key (Record Value)} {k : Key} {e : Entry Value}

theorem account_touch (he : s.shard.map.lookup k = some e) :
    (s.touchLruLocked k e).account = s.account := by
  have hcard : (s.touchLruLocked k e).shard.map.card = s.shard.map.card :=
    AList.card_insert_of_lookup he _
  simp only [account, hcard, counters_touch]

theorem account_erase (he : s.shard.map.lookup k = some e) :
    (s.eraseEntryLocked k e).account + 1 = s.account := by
  have hcard := AList.card_erase he
  simp only [account, map_erase, counters_erase, Counters.subMemory]
  omega

/-- What expires is counted. -/
theorem account_expire (he : s.shard.map.lookup k = some e) :
    (s.expireLocked k e).account = s.account := by
  have herase := account_erase he
  simp only [account, shard_expire, counters_expire, Counters.expired, Counters.subMemory,
    counters_erase] at herase ⊢
  omega

/-- A `set` adds an entry exactly in its insert branch; what it evicts is counted. -/
theorem account_setImpl (H : s.shard.Holds P xs) (hcard : xs.card ≤ s.shard.capacity) (k : Key)
    (v : Value) (ttl : Option Millis) (now : TimePoint) :
    (s.setImpl P k v ttl now).2.account = s.account +
      ((s.shard.map.lookup k).isNone && s.shard.capacity != 0).toNat := by
  have hinsert : s.shard.map.lookup k = none →
      (s.insertLocked P k v ttl now).account = s.account + 1 := by
    intro hk
    have hmap : (s.insertLocked P k v ttl now).shard.map.card = s.shard.map.card + 1 :=
      AList.card_insert_of_lookup_none hk _
    simp only [account, hmap]
    simp only [insertLocked, Counters.addMemory]
    omega
  rcases setImpl_cases H hcard k v ttl now with ⟨hcap, heq⟩ | ⟨hpos, e, he, heq⟩ |
    ⟨hk, hroom, heq⟩ | ⟨hk, hpos, -, z, f, -, hzk, hf, heq⟩
  · simp [heq, hcap]
  · have hmap : (s.overwriteLocked P k v ttl now e).shard.map.card = s.shard.map.card :=
      AList.card_insert_of_lookup he _
    rw [heq, he]
    simp only [account, hmap]
    rfl
  · have hcap : s.shard.capacity ≠ 0 := by omega
    rw [heq, hinsert hk, hk, bne_iff_ne.mpr hcap]
    rfl
  · have hcap : s.shard.capacity ≠ 0 := by omega
    have hf' : (s.insertLocked P k v ttl now).shard.map.lookup z = some f :=
      (AList.lookup_insert_ne hzk).trans hf
    have herase := account_erase hf'
    have hevict : (((s.insertLocked P k v ttl now).eraseEntryLocked z f).count
        Counters.evicted).account =
          ((s.insertLocked P k v ttl now).eraseEntryLocked z f).account + 1 := by
      simp only [account, shard_count, counters_count, Counters.evicted]
      omega
    rw [heq, hevict, herase, hinsert hk, hk, bne_iff_ne.mpr hcap]
    rfl

theorem account_cleanup (H : s.shard.Holds P xs) (now : TimePoint) :
    (s.cleanupLocked now).account = s.account := by
  have hI : ∀ (t : Locked Key Value) ys k e, t.shard.Holds P ys → t.shard.map.lookup k = some e →
      isExpired e now = true → t.account = s.account →
      (t.expireLocked k e).account = s.account :=
    fun t ys k e _ he _ ht => (account_expire he).trans ht
  exact (holds_cleanup now (fun t => t.account = s.account) hI H rfl).1

end Locked

namespace System

/-- The next step of a thread at `pc` is a `set_impl` that takes the insert branch. -/
def insertsNew (s : System P Exn) (pc : Pc Key Value Exn) : Bool :=
  pc.storing.any fun kv =>
    (s.entry kv.1).isNone && (s.cache.shards (shardForKey P kv.1)).capacity != 0

/-- A step in which `set_impl` takes the insert branch. -/
def inserts (s : System P Exn) (a : Action Key Value Exn) (_ : System P Exn) : Bool :=
  a.thread.any fun t => s.insertsNew (s.threads t)

/-- A step with which a `del` returns true. -/
def deletes (_ : System P Exn) (a : Action Key Value Exn) (s' : System P Exn) : Bool :=
  a.thread.any fun t => (s'.threads t).deleted

/-- The stored keys. -/
def keys (s : System P Exn) : Finset Key :=
  Finset.univ.biUnion fun i => (s.cache.shards i).map.keys.toFinset

/-! ## One move -/

omit [DecidableEq Key] in
theorem account_release (s : System P Exn) (k : Key) (l : Locked Key Value) :
    (s.release k l).cache.account + (s.held k).account = s.cache.account + l.account :=
  ShardedCache.account_unlock _ l s.cache

theorem account_store {s : System P Exn} (R : ∃ xs, s.cache.Rep xs) (k : Key) (v : Value)
    (ttl : Option Millis) (record : Option RecordId) :
    (s.store k v ttl record).2.cache.account = s.cache.account +
      ((s.entry k).isNone && (s.cache.shards (shardForKey P k)).capacity != 0).toNat := by
  obtain ⟨xs, R⟩ := R
  have hset := Locked.account_setImpl (R.holds (shardForKey P k)) (R.card_le _) k v ttl s.clock
    (s := s.cache.locked (shardForKey P k))
  have hunlock := ShardedCache.account_unlock (shardForKey P k)
    ((s.cache.locked (shardForKey P k)).setImpl P k v ttl s.clock).2 s.cache
  change (s.cache.unlock (shardForKey P k) (Locked.setImpl P k v ttl s.clock
    (s.cache.locked (shardForKey P k))).2).account = _
  simp only [entry]
  simp only [ShardedCache.shard_locked] at hset
  omega

theorem account_purged {s : System P Exn} {k : Key} {now : TimePoint} {l : Locked Key Value}
    (h : s.Purged k now l) : l.account = (s.held k).account := by
  rcases h with ⟨-, rfl⟩ | ⟨e, he, -, rfl⟩
  · rfl
  · exact Locked.account_expire he

/-- **One move balances.** What it adds to the entries and to the two counters is what it inserts,
less what it deletes. -/
theorem Move.account_eq {s s₁ : System P Exn} {pc pc' : Pc Key Value Exn} (h : Move s pc s₁ pc')
    (R : ∃ xs, s.cache.Rep xs) :
    s₁.cache.account + pc'.deleted.toNat = s.cache.account + (s.insertsNew pc).toNat := by
  -- a section that leaves the account of its shard as it is
  have released : ∀ {k l}, l.account = (s.held k).account →
      (s.release k l).cache.account = s.cache.account := by
    intro k l hl
    have := account_release s k l
    omega
  cases h with
  | call c => cases c <;> rfl
  | sharedMiss caller k now hk | exclusiveMiss caller k now hk =>
      have hsame : ((s.held k).count Counters.miss).account = (s.held k).account := rfl
      cases caller <;> exact congrArg (· + 0) (released hsame)
  | exclusiveExpired caller k now e he hexp =>
      have hsame : (((s.held k).expireLocked k e).count Counters.miss).account =
          (s.held k).account := Locked.account_expire (s := s.held k) he
      cases caller <;> exact congrArg (· + 0) (released hsame)
  | exclusiveHit caller k now e he hlive =>
      have hsame : (((s.held k).touchLruLocked k e).count Counters.hit).account =
          (s.held k).account := Locked.account_touch (s := s.held k) he
      cases caller <;> exact congrArg (· + 0) (released hsame)
  | recheckHit k ttl e he hlive =>
      have hsame : (((s.held k).touchLruLocked k e).count Counters.hit).account =
          (s.held k).account := Locked.account_touch (s := s.held k) he
      exact congrArg (· + 0) (released hsame)
  | set k v ttl => exact account_store R k v ttl none
  | loaded k ttl r v => exact account_store R k v ttl (some r)
  | delPresent k e he =>
      have herase : ((s.held k).eraseEntryLocked k e).account + 1 = (s.held k).account :=
        Locked.account_erase (s := s.held k) he
      have hrelease := account_release s k ((s.held k).eraseEntryLocked k e)
      change (s.release k ((s.held k).eraseEntryLocked k e)).cache.account + 1 =
        s.cache.account + 0
      omega
  | recheckJoin k ttl l r hl hr => exact congrArg (· + 0) (released (account_purged hl))
  | recheckOwn k ttl l hl hfree =>
      let l' : Locked Key Value := { l with shard := { l.shard with
        inflight := l.shard.inflight.insert k s.nextRecord } }
      have hpurged := account_purged hl
      have hsame : l'.account = (s.held k).account := hpurged
      exact congrArg (· + 0) (released hsame)
  | unregister k r out =>
      have hsame : ((s.held k).unregisterLocked k).account = (s.held k).account := rfl
      exact congrArg (· + 0) (released hsame)
  | complete k r out hpc hopen => cases pc <;> first | rfl | cases hpc
  | broken k r out out' hpc hdone => cases pc <;> first | rfl | cases hpc
  | cleanup now i hi =>
      obtain ⟨xs, R⟩ := R
      have hsame := Locked.account_cleanup (R.holds ⟨i, hi⟩) now (s := s.cache.locked ⟨i, hi⟩)
      have hunlock := ShardedCache.account_unlock ⟨i, hi⟩
        ((s.cache.locked ⟨i, hi⟩).cleanupLocked now) s.cache
      change (s.cache.unlock ⟨i, hi⟩ ((s.cache.locked ⟨i, hi⟩).cleanupLocked now)).account + 0 =
        s.cache.account + 0
      omega
  | _ => rfl

theorem account_step {s s' : System P Exn} {a : Action Key Value Exn} (h : Step s a s')
    (R : ∃ xs, s.cache.Rep xs) :
    s'.cache.account + (deletes s a s').toNat = s.cache.account + (inserts s a s').toNat := by
  rcases step_cases h with ⟨now, rfl, -, rfl⟩ | ⟨t, s₁, pc', ha, hmove, rfl⟩
  · rfl
  · have haccount := hmove.account_eq R
    simpa only [deletes, inserts, ha, Option.any_some, threads_self_setPc, cache_setPc] using
      haccount

/-! ## Which keys come and go -/

theorem WellFormed.mem_keys {s : System P Exn} (W : s.WellFormed maxKeys) {k : Key} :
    k ∈ s.keys ↔ ∃ e, s.entry k = some e := by
  obtain ⟨xs, R⟩ := W.rep
  simp only [keys, Finset.mem_biUnion, Finset.mem_univ, true_and, List.mem_toFinset,
    AList.mem_keys_iff_lookup]
  constructor
  · rintro ⟨i, e, he⟩
    have hhome := R.lookup_home he
    exact ⟨e, by rw [entry, hhome]; exact he⟩
  · rintro ⟨e, he⟩
    exact ⟨shardForKey P k, e, he⟩

theorem WellFormed.card_keys {s : System P Exn} (W : s.WellFormed maxKeys) :
    s.keys.card = s.cache.entryCount := by
  obtain ⟨xs, R⟩ := W.rep
  rw [keys, Finset.card_biUnion]
  · refine Finset.sum_congr rfl fun i _ => ?_
    rw [List.toFinset_card_of_nodup (AList.keys_nodup _), AList.length_keys]
  · intro i _ j _ hij
    refine Finset.disjoint_left.mpr fun k hi hj => hij ?_
    obtain ⟨e, he⟩ := AList.mem_keys_iff_lookup.mp (List.mem_toFinset.mp hi)
    obtain ⟨f, hf⟩ := AList.mem_keys_iff_lookup.mp (List.mem_toFinset.mp hj)
    exact (R.lookup_home he).symm.trans (R.lookup_home hf)

/-- A new key is stored if its shard has capacity. -/
theorem WellFormed.entry_store_iff {s : System P Exn} (W : s.WellFormed maxKeys) {k : Key}
    (hk : s.entry k = none) (v : Value) (ttl : Option Millis) (record : Option RecordId) :
    (∃ e, (s.store k v ttl record).2.entry k = some e) ↔
      (s.cache.shards (shardForKey P k)).capacity ≠ 0 := by
  obtain ⟨xs, R⟩ := W.rep
  have hok : (s.store k v ttl record).1 =
      decide ((s.cache.shards (shardForKey P k)).capacity ≠ 0) := by
    rw [R.capacity]
    exact R.set_ok k v ttl s.clock
  rcases entry_store ⟨xs, R⟩ k v ttl record with ⟨htrue, hstored⟩ | ⟨hfalse, hcache⟩
  · exact iff_of_true hstored (of_decide_eq_true (hok.symm.trans htrue))
  · refine iff_of_false ?_ (of_decide_eq_false (hok.symm.trans hfalse))
    rintro ⟨e, he⟩
    rw [entry, hcache] at he
    exact absurd (hk.symm.trans he) (by simp)

/-- A key that a move brings in is the one that it inserts. -/
theorem Move.entry_new_iff {s s₁ : System P Exn} {pc pc' : Pc Key Value Exn}
    (h : Move s pc s₁ pc') (W : s.WellFormed maxKeys) (k : Key) :
    ((∃ e, s₁.entry k = some e) ∧ s.entry k = none) ↔
      s.insertsNew pc = true ∧ ∃ v, pc.storing = some (k, v) := by
  by_cases hstore : ∃ v, pc.storing = some (k, v)
  · obtain ⟨v, hv⟩ := hstore
    have stored : ∀ ttl record, s₁ = (s.store k v ttl record).2 → s.entry k = none →
        ((∃ e, s₁.entry k = some e) ↔ (s.cache.shards (shardForKey P k)).capacity ≠ 0) := by
      rintro ttl record rfl hk
      exact W.entry_store_iff hk v ttl record
    have hiff : s.entry k = none → ((∃ e, s₁.entry k = some e) ↔
        (s.cache.shards (shardForKey P k)).capacity ≠ 0) := by
      cases h with
      | set k v ttl =>
          cases hv
          exact stored ttl none rfl
      | loaded k ttl r v =>
          cases hv
          exact stored ttl (some r) rfl
      | complete k r out hp => cases (storing_of_pending hp).symm.trans hv
      | broken k r out out' hp => cases (storing_of_pending hp).symm.trans hv
      | _ => cases hv
    have hnew : s.insertsNew pc = true ↔
        s.entry k = none ∧ (s.cache.shards (shardForKey P k)).capacity ≠ 0 := by
      simp [insertsNew, hv]
    rw [hnew]
    constructor
    · rintro ⟨he, hk⟩
      exact ⟨⟨hk, (hiff hk).mp he⟩, v, hv⟩
    · rintro ⟨⟨hk, hcap⟩, -⟩
      exact ⟨(hiff hk).mpr hcap, hk⟩
  · refine iff_of_false ?_ fun hnew => hstore hnew.2
    rintro ⟨⟨e, he⟩, hk⟩
    obtain ⟨e', he', -⟩ := h.record_of_lookup W.rep (fun v hv => hstore ⟨v, hv⟩) he
    exact absurd (hk.symm.trans he') (by simp)

/-- As many keys come in as entries are inserted. -/
theorem card_arrivals {s s' : System P Exn} {a : Action Key Value Exn} (h : Step s a s')
    (W : s.WellFormed maxKeys) : (s'.keys \ s.keys).card = (inserts s a s').toNat := by
  have W' := W.step h
  have hmem : ∀ k, k ∈ s'.keys \ s.keys ↔ (∃ e, s'.entry k = some e) ∧ s.entry k = none := by
    intro k
    rw [Finset.mem_sdiff, W.mem_keys, W'.mem_keys, not_exists, Option.eq_none_iff_forall_ne_some]
  rcases step_cases h with ⟨now, rfl, -, rfl⟩ | ⟨t, s₁, pc', ha, hmove, rfl⟩
  · refine Finset.card_eq_zero.mpr (Finset.eq_empty_of_forall_notMem fun k hk => ?_)
    obtain ⟨⟨e, he⟩, hnone⟩ := (hmem k).mp hk
    exact absurd (hnone.symm.trans he) (by simp)
  · have hentry : ∀ k, (s₁.setPc t pc').entry k = s₁.entry k := fun _ => rfl
    simp only [hentry, hmove.entry_new_iff W] at hmem
    have hinserts : inserts s a (s₁.setPc t pc') = s.insertsNew (s.threads t) := by
      simp only [inserts, ha, Option.any_some]
    rw [hinserts]
    cases hnew : s.insertsNew (s.threads t) with
    | false =>
        refine Finset.card_eq_zero.mpr (Finset.eq_empty_of_forall_notMem fun k hk => ?_)
        exact absurd ((hmem k).mp hk).1 (by simp [hnew])
    | true =>
        obtain ⟨kv, hkv, -⟩ := (Option.any_eq_true _ _).mp hnew
        refine Finset.card_eq_one.mpr ⟨kv.1, Finset.ext fun k => ?_⟩
        rw [hmem, Finset.mem_singleton]
        constructor
        · rintro ⟨-, v, hv⟩
          cases hkv.symm.trans hv
          rfl
        · rintro rfl
          exact ⟨hnew, kv.2, hkv⟩

/-- **Entry conservation.** After every run the stored entries are those that were inserted, less
those that `del` removed, less the evictions and the expirations that were counted. And in each
step as many keys leave the cache as are reported by `del` or added to the two counters. -/
theorem entries_conserved {now : TimePoint} {as : List (Action Key Value Exn)} {s : System P Exn}
    (hrun : Transition.Run Step (init P Exn maxKeys now) as s) :
    (s.cache.entryCount : ℤ) =
      Transition.occurrences step inserts as (init P Exn maxKeys now) -
        Transition.occurrences step deletes as (init P Exn maxKeys now) -
        s.cache.counters.evictions - s.cache.counters.expirations ∧
    ∀ a s', Step s a s' →
      s'.cache.counters.evictions + s'.cache.counters.expirations + (deletes s a s').toNat =
        s.cache.counters.evictions + s.cache.counters.expirations +
          (s.keys \ s'.keys).card := by
  have W : (init P Exn maxKeys now).WellFormed maxKeys := wellFormed_init now
  constructor
  · have hbalance := hrun.balance (I := WellFormed maxKeys) (f := fun s => s.cache.account)
      (g := fun _ => 0) (v := fun s a t => (deletes s a t).toNat)
      (w := fun s a t => (inserts s a t).toNat)
      (fun s a _ t hstep hs => ⟨hs.step hstep, account_step hstep hs.rep⟩) W
    have hstart : (init P Exn maxKeys now).cache.account = 0 := by
      have hempty : (init P Exn maxKeys now).cache.entryCount = 0 :=
        Finset.sum_eq_zero fun i _ => AList.card_empty
      rw [ShardedCache.account, hempty]
      rfl
    rw [hstart] at hbalance
    simp only [ShardedCache.account] at hbalance
    change s.cache.entryCount + s.cache.counters.evictions + s.cache.counters.expirations + 0 +
      Transition.occurrences step deletes as (init P Exn maxKeys now) =
        0 + 0 + Transition.occurrences step inserts as (init P Exn maxKeys now) at hbalance
    omega
  · intro a s' hstep
    have Ws := W.run hrun
    have haccount := account_step hstep Ws.rep
    have harrivals := card_arrivals hstep Ws
    have hunion : (s.keys \ s'.keys).card + s'.keys.card = (s'.keys \ s.keys).card + s.keys.card := by
      rw [Finset.card_sdiff_add_card, Finset.card_sdiff_add_card, Finset.union_comm]
    rw [harrivals, Ws.card_keys, (Ws.step hstep).card_keys] at hunion
    simp only [ShardedCache.account] at haccount
    omega

/-- Two keys are stored in a cache for one key, and the second one is deleted. -/
private def storeEvictDelete : List (Action ℕ ℕ Unit) :=
  [.call 0 (.set 0 5 none), .run 0, .call 1 (.set 2 6 none), .run 1, .call 2 (.del 2), .run 2]

theorem entries_conserved_twoShards :
    let start := init CacheParams.twoShards Unit 1 0
    let s := (Transition.exec step storeEvictDelete start).get (by decide)
    (s.cache.entryCount : ℤ) = Transition.occurrences step inserts storeEvictDelete start -
      Transition.occurrences step deletes storeEvictDelete start -
        s.cache.counters.evictions - s.cache.counters.expirations ∧
      s.cache.counters.evictions = 1 := by
  intro start s
  have hrun : Transition.Run Step start storeEvictDelete s :=
    Transition.run_of_exec (Option.some_get _).symm
  exact ⟨(entries_conserved hrun).1, by decide⟩

end System
end MiniRedis
