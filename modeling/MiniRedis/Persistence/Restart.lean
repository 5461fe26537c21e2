import MiniRedis.Persistence.Recovery

/-!
# A clean restart

One client works with the server without ttls, starting from empty files. What the restarted server
holds is what the log leaves when it is replayed from nothing: the snapshot only adds entries that
the log mentions. The log does not contain the reads, so its replay drops the keys in the order in
which they were last set, whereas the live cache drops them in the order in which they were last
set or read.
-/
namespace MiniRedis
variable {M : Platform}

namespace Server

/-- A run of the server from empty files. -/
def run (M : Platform) (capacity : ℕ) (acts : List (Instant × ServerAction M)) : Server M :=
  acts.foldl (fun s x => s.step x.1 x.2) (init M capacity)

/-- After an orderly shutdown and a restart every key reads as it did before. -/
def CleanRestart (s : Server M) : Prop :=
  ∀ ord t clock now now' key,
    (((s.shutdown ord t).restart clock).cache.get key now').1 = (s.cache.get key now).1

/-- The position of the last `SET` of a key among the logged commands of its shard. -/
def lastSet (key : Bytes) (s : Server M) : ℕ :=
  WriteLog.lastPut key (shardLog M (M.home key) s.log)

/-- If the line makes the cache evict a key, then every other key in the shard was set after it. -/
def EvictsOldestSet (s : Server M) (line : Bytes) : Prop :=
  ∀ key value ttl, (parseTcpCommand line).write? = some (.set key value ttl) →
    let shard := s.cache.shards (M.home key)
    shard.map.lookup key = none → shard.map.card = shard.capacity →
      ∀ victim, shard.lru.back? = some victim → ∀ other ∈ shard.map.keys, other ≠ victim →
        s.lastSet victim < s.lastSet other

instance (s : Server M) (line : Bytes) : Decidable (s.EvictsOldestSet line) :=
  match h : (parseTcpCommand line).write? with
  | some (.set key value ttl) =>
      let shard := s.cache.shards (M.home key)
      decidable_of_iff (shard.map.lookup key = none → shard.map.card = shard.capacity →
          ∀ victim ∈ shard.lru.back?, ∀ other ∈ shard.map.keys, other ≠ victim →
            s.lastSet victim < s.lastSet other) <| by
        simp [EvictsOldestSet, h, shard]
  | some (.del key) => .isTrue fun key value ttl hset => by simp [h] at hset
  | none => .isTrue fun key value ttl hset => by simp [h] at hset

/-! ## The log explains the cache -/

/-- What is stored under a key is what the last logged write to the key put there. -/
structure Tracks (s : Server M) (ws : List WriteCommand)
    (xs : Fin M.params.numShards → RecencyList Bytes (Record Bytes)) : Prop where
  logged : Logged s.aof s.processor.queue ws
  ttlFree : ∀ w ∈ ws, w.ttl = none
  rep : s.cache.Rep xs
  stored : ∀ i k r, (xs i).lookup k = some r →
    WriteLog.lastWrite k (shardLog M i ws) = some (.put k r)

/-- The shard holds the entries that a replay of its log from nothing leaves. -/
def SameAsLog (s : Server M) (ws : List WriteCommand)
    (xs : Fin M.params.numShards → RecencyList Bytes (Record Bytes)) : Prop :=
  ∀ i k, (xs i).lookup k =
    (WriteLog.replay (capacityOf M.params s.cache.maxKeys i) (shardLog M i ws) ∅).lookup k

end Server

namespace Server.Tracks
variable {s : Server M} {ws : List WriteCommand}
  {xs : Fin M.params.numShards → RecencyList Bytes (Record Bytes)}

theorem init (capacity : ℕ) : (Server.init M capacity).Tracks [] fun _ => ∅ :=
  ⟨.nil, by simp, ShardedCache.Rep.construct capacity, fun _ _ _ h => by cases h⟩

theorem log_eq (T : s.Tracks ws xs) : s.log = ws := T.logged.readBack_eq

theorem deadline (T : s.Tracks ws xs) {i : Fin M.params.numShards} {k : Bytes} {r : Record Bytes}
    (h : (xs i).lookup k = some r) : r.deadline = none :=
  (record_of_lastWrite T.ttlFree (T.stored i k r h)).2

theorem live (T : s.Tracks ws xs) (now : TimePoint) (i : Fin M.params.numShards) (k : Bytes)
    (r : Record Bytes) (h : (xs i).lookup k = some r) : r.expired now = false := by
  simp only [Record.expired, T.deadline h]

/-- A read changes no entry. -/
theorem get (T : s.Tracks ws xs) (key : Bytes) (now : TimePoint) :
    ∃ ys, Tracks { s with processor := { s.processor with cache := (s.cache.get key now).2 } } ws ys ∧
      ∀ i k, (ys i).lookup k = (xs i).lookup k := by
  have hsame : ∀ i k, (Function.update xs (M.home key) (lookedUp now key (xs (M.home key))) i).lookup k
      = (xs i).lookup k := by
    intro i k
    by_cases hi : i = M.home key
    · subst hi
      rw [Function.update_self]
      exact lookup_lookedUp (T.live now _) key k
    · rw [Function.update_of_ne hi]
  refine ⟨_, ⟨T.logged, T.ttlFree, T.rep.get key now, ?_⟩, hsame⟩
  intro i k r hr
  rw [hsame] at hr
  exact T.stored i k r hr

/-- A clean-up finds nothing to remove. -/
theorem reap (T : s.Tracks ws xs) (now : TimePoint) (shard : Fin M.params.numShards) :
    Tracks { s with processor := { s.processor with cache := s.cache.cleanupShard now shard } } ws
      xs := by
  have hlive : liveRecords now (xs shard) = xs shard :=
    AList.filterEntries_eq_self fun k r hr => by simp [T.live now shard k r hr]
  have R := T.rep.cleanupShard now shard
  rw [hlive, Function.update_eq_self] at R
  exact ⟨T.logged, T.ttlFree, R, T.stored⟩

/-- A write is logged and applied. -/
theorem write (T : s.Tracks ws xs) {w : WriteCommand} (hw : w.Storable) (hfree : w.ttl = none)
    (now : TimePoint) :
    Tracks { s with processor := ⟨applyWrite now w s.cache, s.processor.queue ++ [w.line]⟩ }
      (ws ++ [w]) (Function.update xs (M.home w.key)
        ((w.write 0).apply (capacityOf M.params s.cache.maxKeys (M.home w.key))
          (xs (M.home w.key)))) := by
  refine ⟨T.logged.enqueue hw, ?_, ?_, ?_⟩
  · intro v hv
    rcases List.mem_append.mp hv with hv | hv
    · exact T.ttlFree v hv
    · rw [List.mem_singleton.mp hv]
      exact hfree
  · have R := T.rep.applyWrite now w
    rwa [WriteCommand.write_of_ttl_none hfree now 0] at R
  · intro i k r hr
    by_cases hi : i = M.home w.key
    · subst hi
      rw [Function.update_self] at hr
      rw [shardLog_append, shardLog_singleton_self]
      rcases Write.lookup_apply hr with heq | ⟨hk, hprev⟩
      · rw [heq]
        exact WriteLog.lastWrite_snoc_self _ rfl
      · rw [WriteLog.lastWrite_snoc_of_ne _ hk]
        exact T.stored _ k r hprev
    · rw [Function.update_of_ne hi] at hr
      rw [shardLog_append, shardLog_singleton_of_ne hi, List.append_nil]
      exact T.stored i k r hr

theorem flush (T : s.Tracks ws xs) : s.flush.Tracks ws xs :=
  ⟨T.logged.flush, T.ttlFree, T.rep, T.stored⟩

/-! ## What a restart brings back -/

/-- A snapshot shows what was logged. -/
theorem mem_log_of_item (T : s.Tracks ws xs) {ord : HashOrder Bytes Bytes} {now : TimePoint}
    {item : SnapshotItem Bytes Bytes} (h : item ∈ s.cache.snapshotItems ord now) :
    item.command ∈ ws :=
  T.rep.command_mem (fun i k r hr => record_of_lastWrite T.ttlFree (T.stored i k r hr)) h

/-- **After a restart each shard holds what its log leaves.** -/
theorem rep_restart (T : s.Tracks ws xs) (ord : HashOrder Bytes Bytes) (t : Instant)
    (clock : RecoveryClock) :
    ((s.shutdown ord t).restart clock).cache.Rep fun i =>
      WriteLog.replay (capacityOf M.params s.cache.maxKeys i) (shardLog M i ws) ∅ := by
  let items := s.cache.snapshotItems ord t.now
  have haof : readBack (s.aof ++ aofText s.processor.queue) = ws := T.logged.readBack_eq
  have hitems : ∀ w ∈ items.map SnapshotItem.command, w ∈ ws := by
    intro w hw
    obtain ⟨item, hitem, rfl⟩ := List.mem_map.mp hw
    exact T.mem_log_of_item hitem
  have hsnapshot : readBack (snapshotText t.epochMs items) = items.map SnapshotItem.command :=
    readBack_snapshotText (fun item hitem =>
      T.logged.storable _ (hitems _ (List.mem_map_of_mem hitem))) _
  have hmem : ∀ w ∈ readBack (snapshotText t.epochMs items), w ∈ ws := hsnapshot ▸ hitems
  have hfree : ∀ w ∈ recoveryLog (snapshotText t.epochMs items) (s.aof ++ aofText s.processor.queue),
      w.ttl = none := by
    intro w hw
    rcases List.mem_append.mp hw with hw | hw
    · exact T.ttlFree w (hmem w hw)
    · exact T.ttlFree w (haof ▸ hw)
  have R := rep_recoverFromDisk (M := M) s.cache.maxKeys clock hfree
  -- the log mentions all keys of the snapshot
  simp only [replay_recoveryLog_of_full fun w hw => ⟨w, haof ▸ hmem w hw, rfl⟩, haof] at R
  exact R

/-- A restart is clean if and only if the cache holds what its log leaves. -/
theorem cleanRestart_iff (T : s.Tracks ws xs) : s.CleanRestart ↔ s.SameAsLog ws xs := by
  have hleft : ∀ i k, ∀ r ∈ (xs i).lookup k, r.deadline = none := fun i k r hr => T.deadline hr
  have hright : ∀ i k, ∀ r ∈ (WriteLog.replay (capacityOf M.params s.cache.maxKeys i)
      (shardLog M i ws) ∅).lookup k, r.deadline = none :=
    fun i k r hr => deadline_replay T.ttlFree hr
  have hiff : ∀ ord t clock now now' key,
      (((s.shutdown ord t).restart clock).cache.get key now').1 = (s.cache.get key now).1 ↔
        (xs (M.home key)).lookup key = (WriteLog.replay (capacityOf M.params s.cache.maxKeys
          (M.home key)) (shardLog M (M.home key) ws) ∅).lookup key := by
    intro ord t clock now now' key
    rw [(T.rep_restart ord t clock).get_eq, T.rep.get_eq, bind_read_inj (hright _ _) (hleft _ _)]
    exact eq_comm
  constructor
  · intro h i k
    by_cases hi : i = M.home k
    · subst hi
      exact (hiff .stored ⟨0, 0⟩ ⟨fun _ => 0, fun _ => 0⟩ 0 0 k).mp (h _ _ _ _ _ k)
    · have habsent : ∀ {maxKeys : ℕ} {ys : RecencyList Bytes (Record Bytes)},
          ListFits M.params maxKeys i ys → ys.lookup k = none := by
        intro maxKeys ys F
        by_contra hne
        obtain ⟨r, hr⟩ := Option.ne_none_iff_exists'.mp hne
        exact hi (F.home k r hr).symm
      rw [habsent (T.rep.fits i),
        habsent ((T.rep_restart .stored ⟨0, 0⟩ ⟨fun _ => 0, fun _ => 0⟩).fits i)]
  · intro h ord t clock now now' key
    exact (hiff ord t clock now now' key).mpr (h _ key)

/-! ## When the cache drops what the log drops -/

theorem lastSet_eq (T : s.Tracks ws xs) {i : Fin M.params.numShards} {k : Bytes}
    (hk : k ∈ (xs i).keys) : s.lastSet k = WriteLog.lastPut k (shardLog M i ws) := by
  obtain ⟨r, hr⟩ := AList.mem_keys_iff_lookup.mp hk
  have hhome : M.home k = i := (T.rep.fits i).home k r hr
  rw [lastSet, T.log_eq, hhome]

/-- The least recently used key of a shard is the oldest one of its log if and only if every other
key was set after it. -/
theorem oldest?_eq_iff (T : s.Tracks ws xs) (hsame : s.SameAsLog ws xs)
    {i : Fin M.params.numShards} (hpos : 0 < (xs i).card) :
    RecencyList.oldest? (xs i) = RecencyList.oldest? (WriteLog.replay
        (capacityOf M.params s.cache.maxKeys i) (shardLog M i ws) ∅) ↔
      ∀ victim, RecencyList.oldest? (xs i) = some victim → ∀ other ∈ (xs i).keys,
        other ≠ victim → s.lastSet victim < s.lastSet other := by
  have hkeys : ∀ k, k ∈ (xs i).keys ↔ k ∈ (WriteLog.replay
      (capacityOf M.params s.cache.maxKeys i) (shardLog M i ws) ∅).keys := by
    intro k
    rw [AList.mem_keys_iff_lookup, AList.mem_keys_iff_lookup, hsame i k]
  obtain ⟨z, hz⟩ := RecencyList.oldest?_isSome hpos
  have hzmem := RecencyList.oldest?_mem hz
  rw [hz, eq_comm, WriteLog.oldest?_replay_iff _ ((hkeys z).mp hzmem)]
  constructor
  · intro h victim hvictim other hother hne
    cases hvictim
    rw [T.lastSet_eq hzmem, T.lastSet_eq hother]
    exact h other ((hkeys other).mp hother) hne
  · intro h other hother hne
    have hlt := h z rfl other ((hkeys other).mpr hother) hne
    rwa [T.lastSet_eq hzmem, T.lastSet_eq ((hkeys other).mpr hother)] at hlt

/-- The condition on an eviction, read off the recency list. -/
theorem evictsOldestSet_iff (T : s.Tracks ws xs) {line key value : Bytes}
    (h : (parseTcpCommand line).write? = some (.set key value none)) :
    s.EvictsOldestSet line ↔
      ((xs (M.home key)).lookup key = none →
        (xs (M.home key)).card = capacityOf M.params s.cache.maxKeys (M.home key) →
        ∀ victim, RecencyList.oldest? (xs (M.home key)) = some victim →
          ∀ other ∈ (xs (M.home key)).keys, other ≠ victim →
            s.lastSet victim < s.lastSet other) := by
  have H := T.rep.holds (M.home key)
  have hnone : (s.cache.shards (M.home key)).map.lookup key = none ↔
      (xs (M.home key)).lookup key = none := by
    rw [← H.records key, Option.map_eq_none_iff]
  have hcond : s.EvictsOldestSet line ↔ (let shard := s.cache.shards (M.home key)
      shard.map.lookup key = none → shard.map.card = shard.capacity →
        ∀ victim, shard.lru.back? = some victim → ∀ other ∈ shard.map.keys, other ≠ victim →
          s.lastSet victim < s.lastSet other) := by
    constructor
    · intro hall
      exact hall key value none h
    · intro hone key' value' ttl' h'
      rw [h] at h'
      cases h'
      exact hone
  rw [hcond]
  simp only [hnone, H.card_eq, T.rep.capacity, H.back, H.mem_keys]

/-- A `set` leaves the shard as its log has it if and only if it evicts the key set longest ago. -/
theorem lookup_put_iff (T : s.Tracks ws xs) (hsame : s.SameAsLog ws xs) {line key value : Bytes}
    (h : (parseTcpCommand line).write? = some (.set key value none)) (r : Record Bytes) :
    (∀ k, (RecencyList.put (capacityOf M.params s.cache.maxKeys (M.home key)) key r
        (xs (M.home key))).lookup k =
      (RecencyList.put (capacityOf M.params s.cache.maxKeys (M.home key)) key r (WriteLog.replay
        (capacityOf M.params s.cache.maxKeys (M.home key)) (shardLog M (M.home key) ws)
          ∅)).lookup k) ↔ s.EvictsOldestSet line := by
  have hcard := T.rep.card_le_capacityOf (M.home key)
  rw [T.evictsOldestSet_iff h]
  by_cases hzero : capacityOf M.params s.cache.maxKeys (M.home key) = 0
  · have hleft : (xs (M.home key)).card ≤ 0 := hcard.trans hzero.le
    have hempty : RecencyList.oldest? (xs (M.home key)) = none := by
      rw [AList.eq_empty_of_card_le hleft]
      rfl
    have hright : (WriteLog.replay 0 (shardLog M (M.home key) ws) ∅).card ≤ 0 :=
      WriteLog.card_replay_le (Nat.le_refl 0) _
    simp only [hzero, RecencyList.put_zero hleft, RecencyList.put_zero hright, hempty]
    have hs := hsame (M.home key)
    rw [hzero] at hs
    simp [hs]
  · rw [RecencyList.lookup_put_congr_iff (hsame _) (by omega) hcard]
    refine forall_congr' fun _ => forall_congr' fun hfull => ?_
    exact T.oldest?_eq_iff hsame (by omega)

/-- After a write every other shard is as its log has it, and the shard of the key is if and only if
its list is what the log leaves. -/
theorem sameAsLog_write_iff (hsame : s.SameAsLog ws xs) (w : WriteCommand) (p : Processor M)
    (hmax : p.cache.maxKeys = s.cache.maxKeys) (ys : RecencyList Bytes (Record Bytes)) :
    SameAsLog { s with processor := p } (ws ++ [w]) (Function.update xs (M.home w.key) ys) ↔
      ∀ k, ys.lookup k = ((w.write 0).apply (capacityOf M.params s.cache.maxKeys (M.home w.key))
        (WriteLog.replay (capacityOf M.params s.cache.maxKeys (M.home w.key))
          (shardLog M (M.home w.key) ws) ∅)).lookup k := by
  have hmax' : ({ s with processor := p } : Server M).cache.maxKeys = s.cache.maxKeys := hmax
  unfold SameAsLog
  rw [hmax']
  constructor
  · intro h k
    have hk := h (M.home w.key) k
    rwa [Function.update_self, shardLog_append, shardLog_singleton_self, WriteLog.replay_snoc] at hk
  · intro h i k
    by_cases hi : i = M.home w.key
    · subst hi
      rw [Function.update_self, shardLog_append, shardLog_singleton_self, WriteLog.replay_snoc]
      exact h k
    · rw [Function.update_of_ne hi, shardLog_append, shardLog_singleton_of_ne hi, List.append_nil]
      exact hsame i k

/-- **One command.** If the cache is as its log has it, then it is so after the command if and only
if the command evicts no key but the one that was set longest ago. -/
theorem command (T : s.Tracks ws xs) {line : Bytes}
    (hfree : (parseTcpCommand line).ttlMs = none) (t : Instant) :
    ∃ ws' ys, (s.step t (.command line)).Tracks ws' ys ∧ (s.SameAsLog ws xs →
      ((s.step t (.command line)).SameAsLog ws' ys ↔ s.EvictsOldestSet line)) := by
  cases hw : (parseTcpCommand line).write? with
  | none =>
      have hevict : s.EvictsOldestSet line := by
        intro key value ttl h
        rw [hw] at h
        cases h
      rcases Processor.executeLine_of_read s.processor t.now hw with heq | ⟨key, heq⟩
      · refine ⟨ws, xs, ?_, fun hsame => ?_⟩ <;> simp only [step, heq]
        · exact T
        · exact iff_of_true hsame hevict
      · obtain ⟨ys, T', hys⟩ := T.get key t.now
        refine ⟨ws, ys, ?_, fun hsame => ?_⟩ <;> simp only [step, heq]
        · exact T'
        · refine iff_of_true ?_ hevict
          intro i k
          rw [hys]
          have hmax := ShardedCache.maxKeys_call t.now (.get key) s.cache
          exact (hsame i k).trans (by rw [← hmax]; rfl)
  | some w =>
      have hstorable := storable_of_write? hw
      have hfree' : w.ttl = none := by
        unfold ParsedTcpCommand.write? at hw
        split at hw
        · cases hw
          exact hfree
        · cases hw
          rfl
        · cases hw
      have hstep : s.step t (.command line) = { s with processor :=
          ⟨applyWrite t.now w s.cache, s.processor.queue ++ [w.line]⟩ } := by
        simp only [step, Processor.executeLine_of_write hw]
        rfl
      rw [hstep]
      refine ⟨_, _, T.write hstorable hfree' t.now, fun hsame => ?_⟩
      rw [sameAsLog_write_iff hsame w _ (maxKeys_applyWrite t.now w s.cache)]
      cases w with
      | set key value ttl =>
          cases hfree'
          exact T.lookup_put_iff hsame hw _
      | del key =>
          refine iff_of_true (RecencyList.lookup_erase_congr (hsame _) key) ?_
          intro key' value ttl h
          rw [hw] at h
          cases h

/-- One step, in terms of what a restart would do. -/
theorem step (T : s.Tracks ws xs) (t : Instant) (a : ServerAction M)
    (hfree : ∀ line, a = .command line → (parseTcpCommand line).ttlMs = none) :
    (∃ ws' ys, (s.step t a).Tracks ws' ys) ∧ (s.CleanRestart →
      ((s.step t a).CleanRestart ↔ ∀ line, a = .command line → s.EvictsOldestSet line)) := by
  have hquiet : ∀ s' : Server M, s'.Tracks ws xs → s'.cache.maxKeys = s.cache.maxKeys →
      s.CleanRestart → s'.CleanRestart := by
    intro s' T' hmax hclean
    rw [T'.cleanRestart_iff, SameAsLog, hmax]
    exact T.cleanRestart_iff.mp hclean
  cases a with
  | command line =>
      obtain ⟨ws', ys, T', hiff⟩ := T.command (hfree line rfl) t
      refine ⟨⟨ws', ys, T'⟩, fun hclean => ?_⟩
      rw [T'.cleanRestart_iff, hiff (T.cleanRestart_iff.mp hclean)]
      simp
  | flush => exact ⟨⟨ws, xs, T.flush⟩, fun hclean => iff_of_true (hquiet _ T.flush rfl hclean) (by simp)⟩
  | snapshot ord =>
      have T' : (s.writeSnapshotFile ord t).Tracks ws xs := ⟨T.logged, T.ttlFree, T.rep, T.stored⟩
      exact ⟨⟨ws, xs, T'⟩, fun hclean => iff_of_true (hquiet _ T' rfl hclean) (by simp)⟩
  | reap shard =>
      have T' := T.reap t.now shard
      exact ⟨⟨ws, xs, T'⟩, fun hclean => iff_of_true (hquiet _ T' rfl hclean) (by simp)⟩

end Server.Tracks

namespace Server

/-- The commands of a run have no ttl. -/
def TtlFree (acts : List (Instant × ServerAction M)) : Prop :=
  ∀ t line, (t, .command line) ∈ acts → (parseTcpCommand line).ttlMs = none

theorem run_snoc (capacity : ℕ) (acts : List (Instant × ServerAction M)) (t : Instant)
    (a : ServerAction M) :
    run M capacity (acts ++ [(t, a)]) = (run M capacity acts).step t a := List.foldl_append

theorem TtlFree.of_snoc {acts : List (Instant × ServerAction M)} {t : Instant} {a : ServerAction M}
    (h : TtlFree (acts ++ [(t, a)])) :
    TtlFree acts ∧ ∀ line, a = .command line → (parseTcpCommand line).ttlMs = none := by
  constructor
  · intro t' line hmem
    exact h t' line (List.mem_append_left _ hmem)
  · rintro line rfl
    exact h t line (by simp)

theorem tracks_run (capacity : ℕ) {acts : List (Instant × ServerAction M)} (hfree : TtlFree acts) :
    ∃ ws xs, (run M capacity acts).Tracks ws xs := by
  induction acts using List.reverseRecOn with
  | nil => exact ⟨[], _, Tracks.init capacity⟩
  | append_singleton acts x ih =>
      obtain ⟨t, a⟩ := x
      obtain ⟨hprev, hlast⟩ := hfree.of_snoc
      obtain ⟨ws, xs, T⟩ := ih hprev
      rw [run_snoc]
      exact (T.step t a hlast).1

theorem cleanRestart_init (M : Platform) (capacity : ℕ) : (init M capacity).CleanRestart := by
  rw [(Tracks.init capacity).cleanRestart_iff]
  intro i k
  rfl

/-- **A run can be restarted cleanly at any point if and only if it never evicts a key while another
key of the shard was set less recently.** -/
theorem cleanRestart_run_iff (capacity : ℕ) {acts : List (Instant × ServerAction M)}
    (hfree : TtlFree acts) :
    (∀ bs, bs <+: acts → (run M capacity bs).CleanRestart) ↔
      ∀ bs t line, bs ++ [(t, .command line)] <+: acts →
        (run M capacity bs).EvictsOldestSet line := by
  have hsub : ∀ bs, bs <+: acts → TtlFree bs :=
    fun bs hbs t line hmem => hfree t line (hbs.subset hmem)
  constructor
  · intro h bs t line hbs
    obtain ⟨hprev, hlast⟩ := (hsub _ hbs).of_snoc
    obtain ⟨ws, xs, T⟩ := tracks_run capacity hprev
    have hbefore := h bs ((List.prefix_append _ _).trans hbs)
    have hafter := h _ hbs
    rw [run_snoc] at hafter
    exact ((T.step t _ hlast).2 hbefore).mp hafter line rfl
  · intro h bs
    induction bs using List.reverseRecOn with
    | nil => exact fun _ => cleanRestart_init M capacity
    | append_singleton bs x ih =>
        intro hbs
        obtain ⟨t, a⟩ := x
        obtain ⟨hprev, hlast⟩ := (hsub _ hbs).of_snoc
        obtain ⟨ws, xs, T⟩ := tracks_run capacity hprev
        rw [run_snoc]
        refine ((T.step t a hlast).2 (ih ((List.prefix_append _ _).trans hbs))).mpr ?_
        rintro line rfl
        exact h bs t line hbs

/-! ## A read that changes what is evicted -/

/-- Lines that a client sends, all of them at time zero. -/
def session (lines : List String) : List (Instant × ServerAction Platform.oneShard) :=
  lines.map fun line => (⟨0, 0⟩, .command (ascii line))

theorem ttlFree_session {lines : List String}
    (h : ∀ line ∈ lines, (parseTcpCommand (ascii line)).ttlMs = none) :
    TtlFree (session lines) := by
  intro t line hmem
  obtain ⟨l, hl, heq⟩ := List.mem_map.mp hmem
  cases heq
  exact h l hl

/-- The third key evicts `a`, which was set before `b`. -/
def evictOldest : List (Instant × ServerAction Platform.oneShard) :=
  session ["SET a 1", "SET b 2", "SET c 3"]

theorem cleanRestart_run_iff_evictOldest :
    (run Platform.oneShard 128 evictOldest).cache.counters.evictions = 1 ∧
      ∀ bs, bs <+: evictOldest → (run Platform.oneShard 128 bs).CleanRestart := by
  refine ⟨by decide +kernel, (cleanRestart_run_iff 128 (ttlFree_session (by decide))).mpr ?_⟩
  rintro bs t line ⟨rest, heq⟩
  rcases bs with _ | ⟨x, _ | ⟨y, _ | ⟨z, bs⟩⟩⟩
  · cases heq
    decide +kernel
  · cases heq
    decide +kernel
  · cases heq
    decide +kernel
  · have hlength := congrArg List.length heq
    simp [session] at hlength

/-- The third key evicts `b`, which was read less recently than `a` but set after it. -/
def readBeforeEviction : List (Instant × ServerAction Platform.oneShard) :=
  session ["SET a 1", "SET b 2", "GET a", "SET c 3"]

theorem ttlFree_readBeforeEviction : TtlFree readBeforeEviction := ttlFree_session (by decide)

/-- In a cache with two entries for a shard, `SET a`, `SET b`, `GET a` and `SET c` leave `a` and
`c`, and the replay of the three `SET` lines leaves `b` and `c`. -/
theorem live_key_lost :
    ¬ ∀ (capacity : ℕ) (acts : List (Instant × ServerAction Platform.oneShard)), TtlFree acts →
      (run Platform.oneShard capacity acts).CleanRestart := by
  intro h
  let s := run Platform.oneShard 128 readBeforeEviction
  have hread := h 128 readBeforeEviction ttlFree_readBeforeEviction .stored ⟨0, 0⟩
    ⟨fun _ => 0, fun _ => 0⟩ 0 0 (ascii "a")
  have hlive : (s.cache.get (ascii "a") 0).1 = some (ascii "1") := by decide +kernel
  have hlost : (((s.shutdown .stored ⟨0, 0⟩).restart ⟨fun _ => 0, fun _ => 0⟩).cache.get
      (ascii "a") 0).1 = none := by decide +kernel
  rw [hlost, hlive] at hread
  cases hread

end Server
end MiniRedis
