import MiniRedis.Lib.ReplayRoom
import MiniRedis.Persistence.Recovery

/-!
# The snapshot under the log

A recovery replays the snapshot and then the whole append-only file over it. Where the file mentions
every key of the snapshot, the snapshot leaves no trace. Keys that only the snapshot has stay in the
cache as long as the lines of the file leave them room, so a second start from the snapshot of the
first one can lose them.
-/
namespace MiniRedis
variable {M : Platform}

/-! ## A full log -/

/-- **A full log makes the recovery independent of the snapshot**: every shard gets the same entries
in the same order of use as from the log alone. -/
theorem recoverFromDisk_of_full_log (capacity : ℕ) (clock clock' : RecoveryClock)
    {snapshot aof : Bytes} (hfree : ∀ w ∈ recoveryLog snapshot aof, w.ttl = none)
    (hkeys : ∀ w ∈ readBack snapshot, ∃ v ∈ readBack aof, v.key = w.key)
    (i : Fin M.params.numShards) :
    let both := recoverFromDisk clock snapshot aof (ShardedCache.construct M.params capacity)
    let alone := recoverFromDisk clock' [] aof (ShardedCache.construct M.params capacity)
    (both.shards i).lru.toList = (alone.shards i).lru.toList ∧
      ∀ k, ((both.shards i).map.lookup k).map Entry.record =
        ((alone.shards i).map.lookup k).map Entry.record := by
  intro both alone
  have haof : ∀ w ∈ recoveryLog [] aof, w.ttl = none :=
    fun w hw => hfree w (List.mem_append_right _ hw)
  have H := (rep_recoverFromDisk (M := M) capacity clock hfree).holds i
  have H' := (rep_recoverFromDisk (M := M) capacity clock' haof).holds i
  rw [replay_recoveryLog_of_full hkeys] at H
  exact ⟨H.order.trans H'.order.symm, fun k => (H.records k).trans (H'.records k).symm⟩

/-- An old snapshot of two keys, one of which was overwritten and the other deleted since. -/
theorem recoverFromDisk_of_full_log_oldSnapshot :
    let snapshot := aofText [ascii "# LLMC_RDB_V1 0", ascii "SET a 1", ascii "SET b 2"]
    let aof := aofText [ascii "SET a 3", ascii "DEL b"]
    let both := recoverFromDisk ⟨fun _ => 0, fun _ => 0⟩ snapshot aof
      (ShardedCache.construct Platform.oneShard.params 64)
    let alone := recoverFromDisk ⟨fun _ => 0, fun _ => 0⟩ [] aof
      (ShardedCache.construct Platform.oneShard.params 64)
    let shard := Platform.oneShard.home (ascii "a")
    (both.shards shard).lru.toList = (alone.shards shard).lru.toList ∧
      ∀ k, ((both.shards shard).map.lookup k).map Entry.record =
        ((alone.shards shard).map.lookup k).map Entry.record :=
  recoverFromDisk_of_full_log 64 _ _ (by decide +kernel) (by decide +kernel) _

/-! ## What a snapshot shows of a shard -/

namespace ShardedCache.Rep
variable {c : ShardedCache M.params} {xs : Fin M.params.numShards → RecencyList Bytes (Record Bytes)}

theorem snapshotItem_of_deadline_none {x : Sigma fun _ : Bytes => Entry Bytes}
    (h : x.2.record.deadline = none) (now : TimePoint) :
    snapshotItem now x = some ⟨x.1, x.2.value, none⟩ := by
  have hexpiry : x.2.hasExpiry = false := by
    by_contra hne
    simp [Entry.record, Bool.not_eq_false _ ▸ hne] at h
  simp [snapshotItem, isExpired, hexpiry]

/-- The items of a shard whose entries never expire put them, in the order of the iteration. -/
theorem write_items (R : c.Rep xs)
    (hlasting : ∀ i k r, (xs i).lookup k = some r → r.deadline = none)
    (ord : HashOrder Bytes Bytes) (now : TimePoint) (i : Fin M.params.numShards) :
    (((ord.order (c.shards i).map).filterMap (snapshotItem now)).map SnapshotItem.command).map
        (WriteCommand.write 0) =
      WriteLog.puts ((ord.order (c.shards i).map).map fun x => ⟨x.1, x.2.record⟩) := by
  have hshown : ∀ x ∈ ord.order (c.shards i).map, x.2.record.deadline = none := by
    intro x hx
    have hentry := AList.mem_lookup_iff.mpr ((ord.perm _).mem_iff.mp hx)
    exact hlasting i x.1 _ ((R.holds i).lookup_some hentry)
  have hitems : (ord.order (c.shards i).map).filterMap (snapshotItem now) =
      (ord.order (c.shards i).map).map fun x => ⟨x.1, x.2.value, none⟩ := by
    rw [← List.filterMap_eq_map]
    exact List.filterMap_congr fun x hx => snapshotItem_of_deadline_none (hshown x hx) now
  rw [hitems, List.map_map, List.map_map, WriteLog.puts, List.map_map]
  refine List.map_congr_left fun x hx => ?_
  have hrecord : x.2.record = ⟨x.2.value, none⟩ := by
    rw [← hshown x hx]
    rfl
  simp only [Function.comp_apply, hrecord]
  rfl

/-- The lines about the keys of a shard, among those for some items. -/
theorem shardLog_map_command (items : List (SnapshotItem Bytes Bytes)) (i : Fin M.params.numShards) :
    shardLog M i (items.map SnapshotItem.command) =
      ((items.filter fun item => M.home item.key = i).map SnapshotItem.command).map
        (WriteCommand.write 0) := by
  have hkey : ∀ item : SnapshotItem Bytes Bytes, item.command.key = item.key := fun _ => rfl
  rw [shardLog, List.filter_map]
  simp only [Function.comp_def, hkey]

/-- The lines of a shard are those about its keys. -/
theorem shardLog_items (R : c.Rep xs)
    (hlasting : ∀ i k r, (xs i).lookup k = some r → r.deadline = none)
    (ord : HashOrder Bytes Bytes) (now : TimePoint) (i j : Fin M.params.numShards) :
    shardLog M i (((ord.order (c.shards j).map).filterMap (snapshotItem now)).map
        SnapshotItem.command) =
      if j = i then WriteLog.puts ((ord.order (c.shards i).map).map fun x => ⟨x.1, x.2.record⟩)
      else [] := by
  rw [shardLog_map_command, R.items_filter_home]
  split
  · exact R.write_items hlasting ord now i
  · rfl

/-- **The lines of a snapshot about the keys of a shard** put its entries, in the order in which
the map was iterated. -/
theorem shardLog_snapshotItems (R : c.Rep xs)
    (hlasting : ∀ i k r, (xs i).lookup k = some r → r.deadline = none)
    (ord : HashOrder Bytes Bytes) (now : TimePoint) (i : Fin M.params.numShards) :
    shardLog M i ((c.snapshotItems ord now).map SnapshotItem.command) =
      WriteLog.puts ((ord.order (c.shards i).map).map fun x => ⟨x.1, x.2.record⟩) := by
  rw [shardLog_map_command, R.snapshotItems_filter_home]
  exact R.write_items hlasting ord now i

theorem snapshot_perm (R : c.Rep xs) (ord : HashOrder Bytes Bytes) (i : Fin M.params.numShards) :
    ((ord.order (c.shards i).map).map fun x =>
      (⟨x.1, x.2.record⟩ : Sigma fun _ : Bytes => Record Bytes)).Perm (xs i).entries :=
  ((ord.perm _).map _).trans (R.holds i).records_perm

end ShardedCache.Rep

/-! ## Starting twice -/

/-- The entries that a start on the files leaves in a shard. -/
def recovered (M : Platform) (capacity : ℕ) (snapshot aof : Bytes) (i : Fin M.params.numShards) :
    RecencyList Bytes (Record Bytes) :=
  WriteLog.replay (capacityOf M.params capacity i) (shardLog M i (recoveryLog snapshot aof)) ∅

/-- A server that starts on the files, is stopped at once in an orderly way and starts again reads
as it did after the first start. -/
def RestartIdempotent (M : Platform) (capacity : ℕ) (snapshot aof : Bytes) : Prop :=
  ∀ clock ord t clock' now now' key,
    let first := Server.start M capacity clock snapshot aof
    (((first.shutdown ord t).restart clock').cache.get key now').1 = (first.cache.get key now).1

/-- If a shard recovers a key that the append-only file does not mention, then the lines of the file,
replayed over what the shard recovers, never stand for more keys than it holds. -/
def LogFitsOver (M : Platform) (capacity : ℕ) (snapshot aof : Bytes) : Prop :=
  ∀ i : Fin M.params.numShards,
    (∃ k ∈ (recovered M capacity snapshot aof i).keys, ∀ w ∈ readBack aof, w.key ≠ k) →
      ∀ ws, ws <+: shardLog M i (readBack aof) →
        (WriteLog.replayFree ws (recovered M capacity snapshot aof i)).card ≤
          capacityOf M.params capacity i

/-- The order that visits an entry first. -/
def HashOrder.first (key : Bytes) : HashOrder Bytes Bytes where
  order m := m.entries.filter (fun x => x.1 = key) ++ m.entries.filter fun x => ¬ x.1 = key
  perm m := by simpa using List.filter_append_perm (fun x => decide (x.1 = key)) m.entries

section
variable {capacity : ℕ} {snapshot aof : Bytes}

/-- What the second start reads: the snapshot of the first one, in some order, and the log. -/
theorem get_second_start (hfree : ∀ w ∈ recoveryLog snapshot aof, w.ttl = none)
    (clock : RecoveryClock) (ord : HashOrder Bytes Bytes) (t : Instant) (clock' : RecoveryClock)
    (now : TimePoint) (key : Bytes) :
    let first := Server.start M capacity clock snapshot aof
    let shard := first.cache.shards (M.home key)
    (((first.shutdown ord t).restart clock').cache.get key now).1 =
      ((WriteLog.replay (capacityOf M.params capacity (M.home key))
        (WriteLog.puts ((ord.order shard.map).map fun x => ⟨x.1, x.2.record⟩) ++
          shardLog M (M.home key) (readBack aof)) ∅).lookup key).map Record.value := by
  intro first shard
  have R := rep_recoverFromDisk (M := M) capacity clock hfree
  have hlasting : ∀ i k r, (WriteLog.replay (capacityOf M.params capacity i)
      (shardLog M i (recoveryLog snapshot aof)) ∅).lookup k = some r → r.deadline = none :=
    fun i k r hr => deadline_replay hfree hr
  let items := first.cache.snapshotItems ord t.now
  have hitems : ∀ item ∈ items, item.command ∈ recoveryLog snapshot aof :=
    fun item hitem => R.command_mem (fun i k r hr => stored_replay hfree hr) hitem
  have hread : readBack (snapshotText t.epochMs items) = items.map SnapshotItem.command := by
    refine readBack_snapshotText (fun item hitem => ?_) _
    rcases List.mem_append.mp (hitems item hitem) with h | h
    · exact storable_of_mem_readBack h
    · exact storable_of_mem_readBack h
  have hfree' : ∀ w ∈ recoveryLog (snapshotText t.epochMs items) aof, w.ttl = none := by
    intro w hw
    rw [recoveryLog, hread] at hw
    rcases List.mem_append.mp hw with hw | hw
    · obtain ⟨item, hitem, rfl⟩ := List.mem_map.mp hw
      exact hfree _ (hitems item hitem)
    · exact hfree w (List.mem_append_right _ hw)
  have hget := get_recoverFromDisk (M := M) capacity clock' hfree' key now
  have hlog : shardLog M (M.home key) (items.map SnapshotItem.command) =
      WriteLog.puts ((ord.order shard.map).map fun x => ⟨x.1, x.2.record⟩) :=
    R.shardLog_snapshotItems hlasting ord t.now (M.home key)
  rw [recoveryLog, hread, shardLog_append, hlog] at hget
  have hrestart : (first.shutdown ord t).restart clock' =
      Server.start M capacity clock' (snapshotText t.epochMs items) (aof ++ aofText []) := by
    have hmax : first.cache.maxKeys = capacity := maxKeys_recoverFromDisk _ _ _ _
    change Server.start M first.cache.maxKeys clock' (snapshotText t.epochMs items)
      (aof ++ aofText []) = _
    rw [hmax]
  rw [hrestart, aofText_nil, List.append_nil]
  exact hget

theorem get_first_start (hfree : ∀ w ∈ recoveryLog snapshot aof, w.ttl = none)
    (clock : RecoveryClock) (now : TimePoint) (key : Bytes) :
    ((Server.start M capacity clock snapshot aof).cache.get key now).1 =
      ((recovered M capacity snapshot aof (M.home key)).lookup key).map Record.value :=
  get_recoverFromDisk capacity clock hfree key now

/-- Keys that the log mentions are recovered from it. -/
theorem lookup_recovered_of_mentioned {i : Fin M.params.numShards} {v : Write Bytes (Record Bytes)}
    (hv : v ∈ shardLog M i (readBack aof)) :
    (recovered M capacity snapshot aof i).lookup v.key =
      (WriteLog.replay (capacityOf M.params capacity i) (shardLog M i (readBack aof)) ∅).lookup
        v.key := by
  rw [recovered, recoveryLog, shardLog_append, WriteLog.replay_append]
  exact WriteLog.lookup_replay_of_mentioned (WriteLog.card_replay_le (Nat.zero_le _) _) hv rfl

/-- The order that visits a stored key first puts it first. -/
theorem exists_first {c : ShardedCache M.params}
    {xs : Fin M.params.numShards → RecencyList Bytes (Record Bytes)} (R : c.Rep xs) {k : Bytes}
    {b : Record Bytes} (hb : (xs (M.home k)).lookup k = some b) :
    ∃ es, (((HashOrder.first k).order (c.shards (M.home k)).map).map fun x =>
      (⟨x.1, x.2.record⟩ : Sigma fun _ : Bytes => Record Bytes)) = ⟨k, b⟩ :: es := by
  obtain ⟨e, he, rfl⟩ := (R.holds (M.home k)).exists_entry hb
  have hmem : (⟨k, e⟩ : Sigma fun _ : Bytes => Entry Bytes) ∈
      (c.shards (M.home k)).map.entries.filter (fun x => x.1 = k) :=
    List.mem_filter.mpr ⟨AList.mem_lookup_iff.mp he, by simp⟩
  obtain ⟨⟨j, f⟩, l, hl⟩ := List.exists_cons_of_ne_nil (List.ne_nil_of_mem hmem)
  have hx := List.mem_filter.mp (hl ▸ List.mem_cons_self : (⟨j, f⟩ : Sigma fun _ => _) ∈ _)
  have hj : j = k := of_decide_eq_true hx.2
  subst hj
  cases (AList.mem_lookup_iff.mpr hx.1).symm.trans he
  have horder : (HashOrder.first j).order (c.shards (M.home j)).map = ⟨j, e⟩ ::
      (l ++ (c.shards (M.home j)).map.entries.filter fun x => ¬ x.1 = j) := by
    change _ ++ _ = _
    rw [hl]
    rfl
  exact ⟨_, congrArg (List.map _) horder⟩

/-- An order that puts a key back first shows whether the log leaves it room. -/
theorem logFitsOver_of_restartIdempotent (hfree : ∀ w ∈ recoveryLog snapshot aof, w.ttl = none)
    (h : RestartIdempotent M capacity snapshot aof) : LogFitsOver M capacity snapshot aof := by
  have R := fun clock => rep_recoverFromDisk (M := M) capacity clock hfree
  rintro i ⟨k, hk, hun⟩ ws hws
  obtain ⟨b, hb⟩ := AList.mem_keys_iff_lookup.mp hk
  have hhome : M.home k = i := ((R ⟨0, 0⟩).fits i).home k b hb
  subst hhome
  obtain ⟨es, hes⟩ := exists_first (R ⟨0, 0⟩) hb
  have hperm := (R ⟨0, 0⟩).snapshot_perm (HashOrder.first k) (M.home k)
  rw [hes] at hperm
  have hread := h ⟨0, 0⟩ (HashOrder.first k) ⟨0, 0⟩ ⟨0, 0⟩ 0 0 k
  have hsecond := @get_second_start M capacity snapshot aof hfree ⟨0, 0⟩ (HashOrder.first k)
    ⟨0, 0⟩ ⟨0, 0⟩ 0 k
  have hfirst : (recovered M capacity snapshot aof (M.home k)).lookup k = some b := hb
  have hputs : WriteLog.puts (((HashOrder.first k).order ((Server.start M capacity ⟨0, 0⟩ snapshot
      aof).cache.shards (M.home k)).map).map fun x => ⟨x.1, x.2.record⟩) =
        WriteLog.puts (⟨k, b⟩ :: es) := congrArg WriteLog.puts hes
  dsimp only at hread hsecond
  rw [hputs] at hsecond
  rw [get_first_start hfree, hfirst] at hread
  have hkept := hsecond.symm.trans hread
  -- the key that was put back first is kept
  obtain ⟨c, hc, -⟩ := Option.map_eq_some_iff.mp hkept
  have hnodup : (⟨k, b⟩ :: es : List (Sigma fun _ : Bytes => Record Bytes)).NodupKeys :=
    ((hperm.map Sigma.fst).nodup_iff).mpr (recovered M capacity snapshot aof (M.home k)).nodupKeys
  have hun' := (forall_key_shardLog_iff (M := M)).mpr hun
  have hrest : ∀ v ∈ WriteLog.puts es ++ shardLog M (M.home k) (readBack aof), v.key ≠ k := by
    intro v hv
    rcases List.mem_append.mp hv with hv | hv
    · exact WriteLog.key_ne_of_mem_puts (List.nodup_cons.mp hnodup).1 hv
    · exact hun' v hv
  cases WriteLog.eq_of_lookup_replay_split [] hrest hc
  exact WriteLog.card_replayFree_le_of_kept hperm hun' hc hws

/-- A log that fits leaves room to all that is put back before it. -/
theorem restartIdempotent_of_logFitsOver (hfree : ∀ w ∈ recoveryLog snapshot aof, w.ttl = none)
    (h : LogFitsOver M capacity snapshot aof) : RestartIdempotent M capacity snapshot aof := by
  have R := fun clock => rep_recoverFromDisk (M := M) capacity clock hfree
  intro clock ord t clock' now now' key
  have hperm := (R clock).snapshot_perm ord (M.home key)
  have hcard : (recovered M capacity snapshot aof (M.home key)).card ≤
      capacityOf M.params capacity (M.home key) := WriteLog.card_replay_le (Nat.zero_le _) _
  intro first
  rw [get_second_start hfree, get_first_start hfree]
  refine congrArg (Option.map Record.value) ?_
  by_cases hun : ∀ v ∈ shardLog M (M.home key) (readBack aof), v.key ≠ key
  · by_cases hshard : ∃ k ∈ (recovered M capacity snapshot aof (M.home key)).keys,
        ∀ w ∈ readBack aof, w.key ≠ k
    · exact WriteLog.lookup_replay_puts hperm hcard (h _ hshard) hun
    · have hnone : (recovered M capacity snapshot aof (M.home key)).lookup key = none := by
        by_contra hne
        obtain ⟨b, hb⟩ := Option.ne_none_iff_exists'.mp hne
        exact hshard ⟨key, AList.mem_keys_iff_lookup.mpr ⟨b, hb⟩, forall_key_shardLog_iff.mp hun⟩
      rw [hnone]
      by_contra hne
      obtain ⟨b, hb⟩ := Option.ne_none_iff_exists'.mp hne
      cases hnone.symm.trans (WriteLog.lookup_of_lookup_replay_puts hperm hun hb)
  · push Not at hun
    obtain ⟨v, hv, rfl⟩ := hun
    rw [WriteLog.replay_append, lookup_recovered_of_mentioned hv]
    exact WriteLog.lookup_replay_of_mentioned (WriteLog.card_replay_le (Nat.zero_le _) _) hv rfl

/-- **A second start finds what the first one found** if and only if the log fits over it wherever
it does not mention all of it. -/
theorem restartIdempotent_iff (hfree : ∀ w ∈ recoveryLog snapshot aof, w.ttl = none) :
    RestartIdempotent M capacity snapshot aof ↔ LogFitsOver M capacity snapshot aof :=
  ⟨logFitsOver_of_restartIdempotent hfree, restartIdempotent_of_logFitsOver hfree⟩

end

/-- A snapshot without a log is kept. -/
theorem restartIdempotent_iff_snapshotOnly :
    RestartIdempotent Platform.oneShard 128 (aofText [ascii "SET a 1", ascii "SET b 2"]) [] := by
  refine (restartIdempotent_iff (by decide +kernel)).mpr ?_
  intro i _ ws hws
  have hnil : ws = [] := List.eq_nil_of_prefix_nil hws
  subst hnil
  exact WriteLog.card_replay_le (Nat.zero_le _) _

/-- Three keys fit the shard. The log sets another one and deletes it again, which pushes out the key
of the snapshot that is put back first. -/
theorem second_start_loses_key :
    ¬ ∀ (capacity : ℕ) (snapshot aof : Bytes), (∀ w ∈ recoveryLog snapshot aof, w.ttl = none) →
      RestartIdempotent Platform.oneShard capacity snapshot aof := by
  intro h
  let snapshot := aofText [ascii "SET k48 1", ascii "SET k74 1"]
  let aof := aofText [ascii "SET k142 1", ascii "DEL k142", ascii "SET k164 1"]
  let first := Server.start Platform.oneShard 192 ⟨fun _ => 0, fun _ => 0⟩ snapshot aof
  -- the map iterates `k74`, then `k164`, which is in one bucket with `k48`, and then `k48`
  let ord : HashOrder Bytes Bytes := .first (ascii "k74")
  let second := (first.shutdown ord ⟨0, 0⟩).restart ⟨fun _ => 0, fun _ => 0⟩
  have hfree : ∀ w ∈ recoveryLog snapshot aof, w.ttl = none := by decide +kernel
  have hbefore : (first.cache.get (ascii "k74") 0).1 = some (ascii "1") := by decide +kernel
  have hafter : (second.cache.get (ascii "k74") 0).1 = none := by decide +kernel
  have hread : (second.cache.get (ascii "k74") 0).1 = (first.cache.get (ascii "k74") 0).1 :=
    h 192 snapshot aof hfree ⟨fun _ => 0, fun _ => 0⟩ ord ⟨0, 0⟩ ⟨fun _ => 0, fun _ => 0⟩ 0 0
      (ascii "k74")
  rw [hafter, hbefore] at hread
  cases hread

end MiniRedis
