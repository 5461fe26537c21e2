import MiniRedis.Persistence.Processor

/-!
# A recovery is a replay of a log

What the processor and the recovery do to the cache, in terms of the recency lists of its shards:
each shard replays the part of the log that is about its keys (`Rep.replayCommands`). Writes without
a ttl do the same at any time, so for them the readings of the clock drop out (`writesTo_eq`).
-/
namespace MiniRedis
variable {M : Platform}

namespace WriteCommand

/-- The write to a recency list that the command is at a given time. -/
def write (now : TimePoint) : WriteCommand → Write Bytes (Record Bytes)
  | set key value ttl => .put key (storedRecord value ttl now)
  | del key => .erase key

@[simp] theorem key_write (now : TimePoint) (w : WriteCommand) : (w.write now).key = w.key := by
  cases w <;> rfl

theorem write_of_ttl_none {w : WriteCommand} (h : w.ttl = none) (now now' : TimePoint) :
    w.write now = w.write now' := by
  cases w with
  | set key value ttl =>
      cases h
      rfl
  | del key => rfl

end WriteCommand

/-- The shard of a key. -/
abbrev Platform.home (M : Platform) (key : Bytes) : Fin M.params.numShards :=
  shardForKey M.params key

/-- The writes to shard `i` among timed commands. -/
def writesTo (M : Platform) (i : Fin M.params.numShards) (ws : List (TimePoint × WriteCommand)) :
    List (Write Bytes (Record Bytes)) :=
  (ws.filter fun x => M.home x.2.key = i).map fun x => x.2.write x.1

/-- The writes to shard `i` among commands without a ttl. -/
def shardLog (M : Platform) (i : Fin M.params.numShards) (ws : List WriteCommand) :
    List (Write Bytes (Record Bytes)) :=
  (ws.filter fun w => M.home w.key = i).map (WriteCommand.write 0)

@[simp] theorem shardLog_nil (i : Fin M.params.numShards) : shardLog M i [] = [] := rfl

@[simp] theorem shardLog_append (i : Fin M.params.numShards) (ws ws' : List WriteCommand) :
    shardLog M i (ws ++ ws') = shardLog M i ws ++ shardLog M i ws' := by
  simp [shardLog]

theorem shardLog_singleton_self (w : WriteCommand) : shardLog M (M.home w.key) [w] = [w.write 0] := by
  simp [shardLog]

theorem shardLog_singleton_of_ne {w : WriteCommand} {i : Fin M.params.numShards}
    (h : i ≠ M.home w.key) : shardLog M i [w] = [] := by
  simp [shardLog, h.symm]

/-- A key's own shard has all lines about it. -/
theorem forall_key_shardLog_iff {ws : List WriteCommand} {k : Bytes} :
    (∀ v ∈ shardLog M (M.home k) ws, v.key ≠ k) ↔ ∀ w ∈ ws, w.key ≠ k := by
  constructor
  · rintro h w hw rfl
    have hmem : w.write 0 ∈ shardLog M (M.home w.key) ws :=
      List.mem_map_of_mem (List.mem_filter.mpr ⟨hw, by simp⟩)
    exact h _ hmem (WriteCommand.key_write 0 w)
  · intro h v hv
    obtain ⟨w, hw, rfl⟩ := List.mem_map.mp hv
    rw [WriteCommand.key_write]
    exact h w (List.mem_filter.mp hw).1

theorem map_snd_timed (clock : ℕ → TimePoint) (ws : List WriteCommand) :
    (timed clock ws).map Prod.snd = ws := by
  induction ws generalizing clock with
  | nil => rfl
  | cons w ws ih =>
      rw [timed, List.mapIdx_cons, List.map_cons]
      exact congrArg (List.cons w) (ih fun i => clock (i + 1))

/-- Commands without a ttl are the same writes whenever they are replayed. -/
theorem writesTo_eq {ws : List (TimePoint × WriteCommand)} (h : ∀ x ∈ ws, x.2.ttl = none)
    (i : Fin M.params.numShards) : writesTo M i ws = shardLog M i (ws.map Prod.snd) := by
  rw [writesTo, shardLog, List.filter_map, List.map_map]
  refine List.map_congr_left fun x hx => ?_
  exact WriteCommand.write_of_ttl_none (h x (List.mem_filter.mp hx).1) _ _

theorem ttl_timed {ws : List WriteCommand} (h : ∀ w ∈ ws, w.ttl = none) (clock : ℕ → TimePoint) :
    ∀ x ∈ timed clock ws, x.2.ttl = none := by
  intro x hx
  have hmem := List.mem_map_of_mem (f := Prod.snd) hx
  rw [map_snd_timed] at hmem
  exact h _ hmem

/-! ## Replaying commands -/

namespace ShardedCache.Rep
variable {c : ShardedCache M.params} {xs : Fin M.params.numShards → RecencyList Bytes (Record Bytes)}

theorem applyWrite (R : c.Rep xs) (now : TimePoint) (w : WriteCommand) :
    (applyWrite now w c).Rep (Function.update xs (M.home w.key)
      ((w.write now).apply (capacityOf M.params c.maxKeys (M.home w.key)) (xs (M.home w.key)))) := by
  cases w with
  | set key value ttl => exact R.set key value ttl now
  | del key => exact R.del key

theorem evictions_le_applyWrite (R : c.Rep xs) (now : TimePoint) (w : WriteCommand) :
    c.counters.evictions ≤ (MiniRedis.applyWrite now w c).counters.evictions := by
  cases w with
  | set key value ttl => exact (Nat.le_add_right _ _).trans (R.evictions_set key value ttl now).ge
  | del key => exact (R.evictions_del key).ge

/-- A write that evicts nothing does to its list what it does to a list without a bound. -/
theorem apply_eq_applyFree (R : c.Rep xs) {w : WriteCommand} {now : TimePoint}
    (h : (MiniRedis.applyWrite now w c).counters.evictions = 0)
    (hcap : capacityOf M.params c.maxKeys (M.home w.key) ≠ 0) :
    (w.write now).apply (capacityOf M.params c.maxKeys (M.home w.key)) (xs (M.home w.key)) =
      (w.write now).applyFree (xs (M.home w.key)) := by
  cases w with
  | set key value ttl =>
      have hcount := R.evictions_set key value ttl now
      refine Write.apply_eq_applyFree ?_
      by_contra hover
      rw [if_pos ⟨hcap, not_le.mp hover⟩] at hcount
      simp only [MiniRedis.applyWrite] at h
      omega
  | del key => rfl

/-- While nothing is evicted, a list goes on holding what its writes stand for. -/
theorem standing_applyWrite (R : c.Rep xs) {ws : List WriteCommand} {w : WriteCommand}
    {now : TimePoint} (hfree : w.ttl = none)
    (h : (MiniRedis.applyWrite now w c).counters.evictions = 0) {i : Fin M.params.numShards}
    (hcap : capacityOf M.params c.maxKeys i ≠ 0)
    (hlive : ∀ k, (xs i).lookup k = WriteLog.standing k (shardLog M i ws)) (k : Bytes) :
    (Function.update xs (M.home w.key) ((w.write now).apply
        (capacityOf M.params c.maxKeys (M.home w.key)) (xs (M.home w.key))) i).lookup k =
      WriteLog.standing k (shardLog M i (ws ++ [w])) := by
  rw [shardLog_append]
  by_cases hi : i = M.home w.key
  · subst hi
    rw [Function.update_self, R.apply_eq_applyFree h hcap, shardLog_singleton_self,
      WriteCommand.write_of_ttl_none hfree now 0, ← WriteLog.lookup_contents, WriteLog.contents_snoc]
    refine Write.lookup_applyFree_congr (fun j => ?_) _ k
    rw [hlive j, WriteLog.lookup_contents]
  · rw [Function.update_of_ne hi, shardLog_singleton_of_ne hi, List.append_nil]
    exact hlive k

end ShardedCache.Rep

@[simp] theorem maxKeys_applyWrite (now : TimePoint) (w : WriteCommand)
    (c : ShardedCache M.params) : (applyWrite now w c).maxKeys = c.maxKeys := by
  cases w <;> rfl

theorem maxKeys_replayCommands (ws : List (TimePoint × WriteCommand)) (c : ShardedCache M.params) :
    (replayCommands ws c).maxKeys = c.maxKeys := by
  induction ws generalizing c with
  | nil => rfl
  | cons x ws ih => exact (ih _).trans (maxKeys_applyWrite x.1 x.2 c)

@[simp] theorem maxKeys_recoverFromDisk (clock : RecoveryClock) (snapshot aof : Bytes)
    (c : ShardedCache M.params) : (recoverFromDisk clock snapshot aof c).maxKeys = c.maxKeys :=
  (maxKeys_replayCommands _ _).trans (maxKeys_replayCommands _ _)

/-- A recovery replays the snapshot and then the log. -/
theorem recoverFromDisk_eq (clock : RecoveryClock) (snapshot aof : Bytes)
    (c : ShardedCache M.params) :
    recoverFromDisk clock snapshot aof c =
      replayCommands (timed clock.snapshot (readBack snapshot) ++ timed clock.aof (readBack aof)) c :=
  List.foldl_append.symm

/-- **Each shard replays its part of the log.** -/
theorem ShardedCache.Rep.replayCommands {c : ShardedCache M.params}
    {xs : Fin M.params.numShards → RecencyList Bytes (Record Bytes)} (R : c.Rep xs)
    (ws : List (TimePoint × WriteCommand)) :
    (MiniRedis.replayCommands ws c).Rep fun i =>
      WriteLog.replay (capacityOf M.params c.maxKeys i) (writesTo M i ws) (xs i) := by
  induction ws generalizing c xs with
  | nil => exact R
  | cons x ws ih =>
      have h := ih (R.applyWrite x.1 x.2)
      rw [maxKeys_applyWrite] at h
      refine (congrArg _ (funext fun i => ?_)).mp h
      by_cases hi : i = M.home x.2.key
      · subst hi
        simp [writesTo]
      · have hne : ¬ M.home x.2.key = i := fun heq => hi heq.symm
        simp [writesTo, hi, hne]

/-! ## Logs without ttls -/

theorem mem_of_lastWrite {i : Fin M.params.numShards} {ws : List WriteCommand} {k : Bytes}
    {v : Write Bytes (Record Bytes)} (h : WriteLog.lastWrite k (shardLog M i ws) = some v) :
    ∃ w ∈ ws, w.write 0 = v ∧ w.key = k := by
  have hmem := List.mem_filter.mp (List.mem_of_getLast? h)
  obtain ⟨w, hw, rfl⟩ := List.mem_map.mp hmem.1
  exact ⟨w, (List.mem_filter.mp hw).1, rfl, by simpa using hmem.2⟩

theorem deadline_of_write {w : WriteCommand} (h : w.ttl = none) {now : TimePoint} {k : Bytes}
    {r : Record Bytes} (heq : w.write now = .put k r) : r.deadline = none := by
  cases w with
  | set key value ttl =>
      cases h
      cases heq
      rfl
  | del key => cases heq

/-- What a command without a ttl stores never expires. -/
theorem record_of_lastWrite {i : Fin M.params.numShards} {ws : List WriteCommand}
    (hfree : ∀ w ∈ ws, w.ttl = none) {k : Bytes} {r : Record Bytes}
    (h : WriteLog.lastWrite k (shardLog M i ws) = some (.put k r)) :
    .set k r.value none ∈ ws ∧ r.deadline = none := by
  obtain ⟨w, hw, hwrite, hkey⟩ := mem_of_lastWrite h
  cases w with
  | del key => cases hwrite
  | set key value ttl =>
      have httl : ttl = none := hfree _ hw
      subst httl
      cases hwrite
      exact ⟨hw, rfl⟩

/-- Entries without a deadline are told apart by reading them. -/
theorem bind_read_inj {a b : Option (Record Bytes)} {now now' : TimePoint}
    (ha : ∀ r ∈ a, r.deadline = none) (hb : ∀ r ∈ b, r.deadline = none) :
    a.bind (Record.read now) = b.bind (Record.read now') ↔ a = b := by
  have hread : ∀ (r : Record Bytes) t, r.deadline = none → r.read t = some r.value := by
    intro r t hr
    simp [Record.read, Record.expired, hr]
  cases a with
  | none =>
      cases b with
      | none => simp
      | some q => simp [hread q _ (hb q rfl)]
  | some r =>
      cases b with
      | none => simp [hread r _ (ha r rfl)]
      | some q =>
          have hr := ha r rfl
          have hq := hb q rfl
          simp only [Option.bind_some, hread r _ hr, hread q _ hq, Option.some.injEq]
          constructor
          · intro hvalue
            cases r
            cases q
            cases hvalue
            cases hr
            cases hq
            rfl
          · rintro rfl
            rfl

/-- **A replay of commands without ttls** leaves in each shard what the lines about its keys leave
when they are replayed from nothing. -/
theorem rep_replayCommands (capacity : ℕ) {ws : List (TimePoint × WriteCommand)}
    (hfree : ∀ x ∈ ws, x.2.ttl = none) :
    (replayCommands ws (ShardedCache.construct M.params capacity)).Rep fun i =>
      WriteLog.replay (capacityOf M.params capacity i) (shardLog M i (ws.map Prod.snd)) ∅ := by
  have R := (ShardedCache.Rep.construct (P := M.params) capacity).replayCommands ws
  simp only [writesTo_eq hfree] at R
  exact R

/-- The commands that a recovery reads, those of the snapshot first. -/
def recoveryLog (snapshot aof : Bytes) : List WriteCommand := readBack snapshot ++ readBack aof

/-- The commands that a recovery reads, each with the time at which it is replayed. -/
theorem rep_recoverFromDisk_timed (capacity : ℕ) (clock : RecoveryClock) (snapshot aof : Bytes) :
    (recoverFromDisk clock snapshot aof (ShardedCache.construct M.params capacity)).Rep fun i =>
      WriteLog.replay (capacityOf M.params capacity i) (writesTo M i
        (timed clock.snapshot (readBack snapshot) ++ timed clock.aof (readBack aof))) ∅ := by
  rw [recoverFromDisk_eq]
  exact (ShardedCache.Rep.construct capacity).replayCommands _

theorem rep_recoverFromDisk (capacity : ℕ) (clock : RecoveryClock) {snapshot aof : Bytes}
    (hfree : ∀ w ∈ recoveryLog snapshot aof, w.ttl = none) :
    (recoverFromDisk clock snapshot aof (ShardedCache.construct M.params capacity)).Rep fun i =>
      WriteLog.replay (capacityOf M.params capacity i) (shardLog M i (recoveryLog snapshot aof)) ∅ := by
  have hsnapshot := ttl_timed (fun w hw => hfree w (List.mem_append_left _ hw)) clock.snapshot
  have haof := ttl_timed (fun w hw => hfree w (List.mem_append_right _ hw)) clock.aof
  have R := rep_replayCommands (M := M) capacity (List.forall_mem_append.mpr ⟨hsnapshot, haof⟩)
  rw [← recoverFromDisk_eq, List.map_append, map_snd_timed, map_snd_timed] at R
  exact R

/-- What a replay of commands without ttls stores was set by one of them. -/
theorem stored_replay {ws : List WriteCommand} (hfree : ∀ w ∈ ws, w.ttl = none) {cap : ℕ}
    {i : Fin M.params.numShards} {k : Bytes} {r : Record Bytes}
    (h : (WriteLog.replay cap (shardLog M i ws) ∅).lookup k = some r) :
    .set k r.value none ∈ ws ∧ r.deadline = none := by
  rcases WriteLog.lookup_replay h with hlast | ⟨-, hnone⟩
  · exact record_of_lastWrite hfree hlast
  · cases hnone

theorem deadline_replay {ws : List WriteCommand} (hfree : ∀ w ∈ ws, w.ttl = none) {cap : ℕ}
    {i : Fin M.params.numShards} {k : Bytes} {r : Record Bytes}
    (h : (WriteLog.replay cap (shardLog M i ws) ∅).lookup k = some r) : r.deadline = none :=
  (stored_replay hfree h).2

/-- A snapshot shows what commands without a ttl have set. -/
theorem ShardedCache.Rep.command_mem {c : ShardedCache M.params}
    {xs : Fin M.params.numShards → RecencyList Bytes (Record Bytes)} (R : c.Rep xs)
    {ws : List WriteCommand} (hstored : ∀ i k r, (xs i).lookup k = some r →
      .set k r.value none ∈ ws ∧ r.deadline = none) {ord : HashOrder Bytes Bytes} {now : TimePoint}
    {item : SnapshotItem Bytes Bytes} (h : item ∈ c.snapshotItems ord now) : item.command ∈ ws := by
  obtain ⟨r, hr, hshows⟩ := R.shows h
  obtain ⟨hmem, hdeadline⟩ := hstored _ _ r hr
  have httl : item.ttlRemaining = none := by rw [hshows.ttl, hdeadline]; rfl
  rw [SnapshotItem.command, hshows.value, httl]
  exact hmem

/-- Reading a record without a deadline gives its value. -/
theorem bind_read_eq {a : Option (Record Bytes)} (ha : ∀ r ∈ a, r.deadline = none)
    (now : TimePoint) : a.bind (Record.read now) = a.map Record.value := by
  cases a with
  | none => rfl
  | some r => simp [Record.read, Record.expired, ha r rfl]

/-- **What a `GET` after such a replay returns.** -/
theorem get_replayCommands (capacity : ℕ) {ws : List WriteCommand} (hfree : ∀ w ∈ ws, w.ttl = none)
    (clock : ℕ → TimePoint) (key : Bytes) (now : TimePoint) :
    ((replayCommands (timed clock ws) (ShardedCache.construct M.params capacity)).get key now).1 =
      ((WriteLog.replay (capacityOf M.params capacity (M.home key)) (shardLog M (M.home key) ws)
        ∅).lookup key).map Record.value := by
  have R := rep_replayCommands (M := M) capacity (ttl_timed hfree clock)
  rw [map_snd_timed] at R
  rw [R.get_eq]
  exact bind_read_eq (fun r hr => deadline_replay hfree hr) now

/-- **What a `GET` after such a recovery returns.** -/
theorem get_recoverFromDisk (capacity : ℕ) (clock : RecoveryClock) {snapshot aof : Bytes}
    (hfree : ∀ w ∈ recoveryLog snapshot aof, w.ttl = none) (key : Bytes) (now : TimePoint) :
    ((recoverFromDisk clock snapshot aof (ShardedCache.construct M.params capacity)).get key now).1 =
      ((WriteLog.replay (capacityOf M.params capacity (M.home key))
        (shardLog M (M.home key) (recoveryLog snapshot aof)) ∅).lookup key).map Record.value := by
  rw [(rep_recoverFromDisk capacity clock hfree).get_eq]
  exact bind_read_eq (fun r hr => deadline_replay hfree hr) now

/-- A log that mentions all keys of an earlier one leaves the same when it is replayed alone. -/
theorem replay_recoveryLog_of_full {snapshot aof : Bytes}
    (hkeys : ∀ w ∈ readBack snapshot, ∃ v ∈ readBack aof, v.key = w.key) (cap : ℕ)
    (i : Fin M.params.numShards) :
    WriteLog.replay cap (shardLog M i (recoveryLog snapshot aof)) ∅ =
      WriteLog.replay cap (shardLog M i (readBack aof)) ∅ := by
  rw [recoveryLog, shardLog_append, WriteLog.replay_append]
  refine WriteLog.replay_eq_of_mentioned (WriteLog.card_replay_le (Nat.zero_le _) _) ?_
  intro k r hk
  rcases WriteLog.lookup_replay hk with hlast | ⟨-, hnone⟩
  · have hmem := List.mem_filter.mp (List.mem_of_getLast? hlast)
    obtain ⟨w, hw, hwrite⟩ := List.mem_map.mp hmem.1
    obtain ⟨hw, hhome⟩ := List.mem_filter.mp hw
    obtain ⟨v, hv, hvw⟩ := hkeys w hw
    have hkw : w.key = k := by
      rw [← WriteCommand.key_write 0 w, hwrite]
      rfl
    refine ⟨v.write 0, List.mem_map_of_mem (List.mem_filter.mpr ⟨hv, ?_⟩), ?_⟩
    · rw [hvw]
      exact hhome
    · rw [WriteCommand.key_write, hvw, hkw]
  · cases hnone

/-! ## What the file and the queue hold -/

/-- The file followed by the queue is the log of the given commands. -/
structure Logged (aof : Bytes) (queue : List Bytes) (ws : List WriteCommand) : Prop where
  text : aof ++ aofText queue = aofText (ws.map WriteCommand.line)
  storable : ∀ w ∈ ws, w.Storable

namespace Logged
variable {aof : Bytes} {queue : List Bytes} {ws : List WriteCommand}

theorem nil : Logged [] [] [] := ⟨rfl, by simp⟩

theorem readBack_eq (h : Logged aof queue ws) : readBack (aof ++ aofText queue) = ws := by
  have := readBack_aofText h.storable []
  rwa [List.append_nil, readBack_nil, List.append_nil, ← h.text] at this

theorem enqueue (h : Logged aof queue ws) {w : WriteCommand} (hw : w.Storable) :
    Logged aof (queue ++ [w.line]) (ws ++ [w]) := by
  refine ⟨?_, ?_⟩
  · rw [aofText_append, ← List.append_assoc, h.text, List.map_append, aofText_append]
    rfl
  · intro v hv
    rcases List.mem_append.mp hv with hv | hv
    · exact h.storable v hv
    · rw [List.mem_singleton.mp hv]
      exact hw

theorem flush (h : Logged aof queue ws) : Logged (aof ++ aofText queue) [] ws :=
  ⟨by rw [aofText_nil, List.append_nil, h.text], h.storable⟩

end Logged

/-! ## Executing a line -/

namespace Processor
variable {line : Bytes} {now : TimePoint} {p : Processor M}

/-- A write is applied to the cache and logged, whether it succeeds or not. -/
theorem executeLine_of_write {w : WriteCommand} (h : (parseTcpCommand line).write? = some w) :
    (p.executeLine line now).2 = ⟨applyWrite now w p.cache, p.queue ++ [w.line]⟩ := by
  unfold ParsedTcpCommand.write? at h
  split at h
  · next hset =>
    cases h
    simp only [executeLine, hset, executeParsed]
    rfl
  · next hdel =>
    cases h
    simp only [executeLine, hdel, executeParsed]
    rfl
  · cases h

/-- Any other line is at most a `get`. -/
theorem executeLine_of_read (p : Processor M) (now : TimePoint)
    (h : (parseTcpCommand line).write? = none) :
    (p.executeLine line now).2 = p ∨
      ∃ key, (p.executeLine line now).2 = { p with cache := (p.cache.get key now).2 } := by
  unfold ParsedTcpCommand.write? at h
  cases htype : (parseTcpCommand line).type with
  | set | del => simp [htype] at h
  | get =>
      refine .inr ⟨(parseTcpCommand line).key, ?_⟩
      simp only [executeLine, htype, executeParsed]
      rfl
  | stats | ping | quit | help | invalid =>
      left
      simp only [executeLine, htype, executeParsed]
      rfl

end Processor
end MiniRedis
