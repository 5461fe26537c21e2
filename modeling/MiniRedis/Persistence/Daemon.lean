import MiniRedis.Lib.ReplayRoom
import MiniRedis.Lib.Transition
import MiniRedis.Persistence.AofQueue
import MiniRedis.Persistence.TornTail

/-!
# The process with its threads and files

Clients write, the thread of the append-only file and the snapshot thread go about their work, and
any order of their steps is a run. After any step the process may crash; what the next process
recovers depends on the two files alone.

## Main definitions

* `Daemon`, `Daemon.step` — the process and its steps.
* `Daemon.flushed` — the commands whose lines have reached the append-only file.
* `Daemon.recover` — the cache of the next process, if this one crashes now.
* `Outlives` — what a recovery keeps, told from the lines that it reads (`get_recover_iff`).
-/
namespace MiniRedis
variable {M : Platform}

/-- Where `snapshot_loop` is. -/
inductive DumpPc (M : Platform)
  | idle
  /-- `snapshot_items` visits the remaining shards. -/
  | collect (now : TimePoint) (rest : List (Fin M.params.numShards))
      (items : List (SnapshotItem Bytes Bytes))
  /-- The temporary file is written, and the old snapshot is removed next. -/
  | remove (text : Bytes)
  | rename (text : Bytes)

structure Daemon (M : Platform) where
  cache : ShardedCache M.params
  /-- The write of each client that took effect and is not in the queue yet. -/
  pending : ℕ → Option WriteCommand
  aof : AofWorker
  dump : DumpPc M
  snapshot : Option Bytes
  /-- The writes that took effect, in order. Nothing depends on them, nor on the next two. -/
  issued : List WriteCommand
  /-- How many of them had taken effect when a shard was visited last. -/
  visited : Fin M.params.numShards → ℕ
  /-- How many of them the snapshot in place has of a shard. -/
  shown : Fin M.params.numShards → ℕ

inductive DaemonAction (M : Platform)
  /-- A client's line, a write without a ttl, takes effect in the cache. -/
  | update (client : ℕ) (line : Bytes) (now : TimePoint)
  /-- A client's write is put into the queue. -/
  | enqueue (client : ℕ)
  | requestStop
  | requestAofRewrite
  /-- A step of the thread that writes the append-only file. -/
  | work (seesStop : Bool) (passed : ℕ)
  /-- A step of the snapshot thread. -/
  | dump (t : Instant) (ord : HashOrder Bytes Bytes)

namespace Daemon

/-- The process is started without files. -/
def init (M : Platform) (capacity : ℕ) : Daemon M :=
  ⟨ShardedCache.construct M.params capacity, fun _ => none, .start [], .idle, none, [], fun _ => 0,
    fun _ => 0⟩

/-- A step of `snapshot_loop`. -/
def dumpStep (t : Instant) (ord : HashOrder Bytes Bytes) (s : Daemon M) : Daemon M :=
  match s.dump with
  | .idle => { s with dump := .collect t.now (List.finRange M.params.numShards) [] }
  | .collect now (i :: rest) items =>
      let shown := (ord.order (s.cache.shards i).map).filterMap (ShardedCache.snapshotItem now)
      { s with
        dump := .collect now rest (items ++ shown)
        visited := Function.update s.visited i s.issued.length }
  | .collect _ [] items => { s with dump := .remove (snapshotText t.epochMs items) }
  | .remove text => { s with dump := .rename text, snapshot := none, shown := fun _ => 0 }
  | .rename text => { s with dump := .idle, snapshot := some text, shown := s.visited }

/-- The snapshot thread leaves the rest of the process alone. -/
theorem dumpStep_frame (t : Instant) (ord : HashOrder Bytes Bytes) (s : Daemon M) :
    ∃ dump snapshot visited shown, s.dumpStep t ord =
      { s with dump := dump, snapshot := snapshot, visited := visited, shown := shown } := by
  cases hd : s.dump with
  | collect now rest items =>
      cases rest <;> simp only [dumpStep, hd] <;> exact ⟨_, _, _, _, rfl⟩
  | idle | remove text | rename text =>
      simp only [dumpStep, hd]
      exact ⟨_, _, _, _, rfl⟩

def step : DaemonAction M → Daemon M → Option (Daemon M)
  | .update client line now, s =>
      (parseTcpCommand line).write?.bind fun w =>
        if w.ttl = none ∧ s.pending client = none then
          some { s with
            cache := applyWrite now w s.cache
            pending := Function.update s.pending client (some w)
            issued := s.issued ++ [w] }
        else none
  | .enqueue client, s =>
      (s.pending client).map fun w =>
        { s with
          aof := s.aof.step (.enqueueLine w.line)
          pending := Function.update s.pending client none }
  | .requestStop, s => some { s with aof := s.aof.step .requestStop }
  | .requestAofRewrite, s => some { s with aof := s.aof.step .requestAofRewrite }
  | .work seesStop passed, s => some { s with aof := s.aof.work seesStop passed }
  | .dump t ord, s => some (s.dumpStep t ord)

/-- The command that a step puts into the queue. -/
def queued (s : Daemon M) : DaemonAction M → List WriteCommand
  | .enqueue client => (s.pending client).toList
  | .update .. | .requestStop | .requestAofRewrite | .work .. | .dump .. => []

/-- `step` as a relation. -/
def Step (s : Daemon M) (a : DaemonAction M) (s' : Daemon M) : Prop := step a s = some s'

theorem update_cases {s s' : Daemon M} {client : ℕ} {line : Bytes} {now : TimePoint}
    (h : Step s (.update client line now) s') :
    ∃ w, (parseTcpCommand line).write? = some w ∧ w.ttl = none ∧ s.pending client = none ∧
      s' = { s with
        cache := applyWrite now w s.cache
        pending := Function.update s.pending client (some w)
        issued := s.issued ++ [w] } := by
  obtain ⟨w, hw, hstep⟩ := Option.bind_eq_some_iff.mp h
  split at hstep
  · next hguard =>
    cases hstep
    exact ⟨w, hw, hguard.1, hguard.2, rfl⟩
  · cases hstep

/-- The commands whose lines have reached the append-only file to the end, whether a rewrite has cut
them off since or not. -/
def flushed (s : Daemon M) : List WriteCommand :=
  (Splitting.terminated newline (s.aof.truncated ++ s.aof.file)).filterMap replayLine

/-- The commands that a recovery after a crash reads. -/
def left (s : Daemon M) : List WriteCommand := recoveryLog (s.snapshot.getD []) s.aof.file

/-- The next process, after a crash: a cache of the same capacity recovers from the files. -/
def recover (clock : RecoveryClock) (s : Daemon M) : ShardedCache M.params :=
  recoverFromDisk clock (s.snapshot.getD []) s.aof.file
    (ShardedCache.construct M.params s.cache.maxKeys)

end Daemon

/-! ## The last command on a key -/

def WriteCommand.value? : WriteCommand → Option Bytes
  | set _ value _ => some value
  | del _ => none

/-- What the last of some commands on a key leaves there. -/
def lastValue (key : Bytes) (ws : List WriteCommand) : Option Bytes :=
  ((ws.filter fun w => w.key = key).getLast?).bind WriteCommand.value?

theorem lastValue_of_unmentioned {key : Bytes} {ws : List WriteCommand}
    (h : ∀ w ∈ ws, w.key ≠ key) : lastValue key ws = none := by
  have hnil : ws.filter (fun w => w.key = key) = [] :=
    List.filter_eq_nil_iff.mpr fun w hw => by simpa using h w hw
  rw [lastValue, hnil]
  rfl

/-- Commands about other keys change nothing. -/
theorem lastValue_append_of_unmentioned {key : Bytes} {ws ws' : List WriteCommand}
    (h : ∀ w ∈ ws', w.key ≠ key) : lastValue key (ws ++ ws') = lastValue key ws := by
  have hnil : ws'.filter (fun w => w.key = key) = [] :=
    List.filter_eq_nil_iff.mpr fun w hw => by simpa using h w hw
  rw [lastValue, List.filter_append, hnil, List.append_nil]
  rfl

/-- What comes before a command on the key does not matter. -/
theorem lastValue_append_of_mentioned {key : Bytes} {ws ws' : List WriteCommand}
    (h : ∃ w ∈ ws', w.key = key) : lastValue key (ws ++ ws') = lastValue key ws' := by
  obtain ⟨w, hw, hkey⟩ := h
  have hmem : w ∈ ws'.filter fun w => w.key = key := List.mem_filter.mpr ⟨hw, by simpa using hkey⟩
  rw [lastValue, List.filter_append, List.getLast?_append_of_ne_nil _ (List.ne_nil_of_mem hmem)]
  rfl

/-- The lines of a key's shard have all that the key depends on. -/
theorem map_value_standing (key : Bytes) (ws : List WriteCommand) :
    (WriteLog.standing key (shardLog M (M.home key) ws)).map Record.value = lastValue key ws := by
  have hfilter : (shardLog M (M.home key) ws).filter (fun v => v.key = key) =
      (ws.filter fun w => w.key = key).map (WriteCommand.write 0) := by
    rw [shardLog, List.filter_map, List.filter_filter]
    congr 1
    refine List.filter_congr fun w _ => ?_
    by_cases hw : w.key = key <;> simp [hw]
  rw [WriteLog.standing, WriteLog.lastWrite, hfilter, List.getLast?_map, lastValue]
  cases (ws.filter fun w => w.key = key).getLast? with
  | none => rfl
  | some w => cases w <;> rfl

/-! ## What a recovery keeps -/

/-- Among some lines one sets the key to the value, no line about the key follows, and those that
follow in its shard leave it room. -/
def Outlives (M : Platform) (capacity : ℕ) (key value : Bytes) (ws : List WriteCommand) : Prop :=
  ∃ pre post, shardLog M (M.home key) ws = pre ++ .put key ⟨value, none⟩ :: post ∧
    (∀ v ∈ post, v.key ≠ key) ∧ WriteLog.LeavesRoom (capacityOf M.params capacity (M.home key)) post

section Keeping
variable {capacity : ℕ} {key value : Bytes} {ws ws' : List WriteCommand}

theorem map_value_replay_iff (hfree : ∀ w ∈ ws, w.ttl = none) :
    ((WriteLog.replay (capacityOf M.params capacity (M.home key)) (shardLog M (M.home key) ws)
      ∅).lookup key).map Record.value = some value ↔ Outlives M capacity key value ws := by
  rw [Option.map_eq_some_iff, Outlives, ← WriteLog.lookup_replay_empty_iff]
  constructor
  · rintro ⟨r, hr, rfl⟩
    have hdeadline := deadline_replay hfree hr
    rwa [← hdeadline]
  · intro h
    exact ⟨_, h, rfl⟩

/-- Lines before those that mention the key do not matter. -/
theorem outlives_append_iff (hfree : ∀ w ∈ ws ++ ws', w.ttl = none)
    (hkey : ∃ w ∈ ws', w.key = key) :
    Outlives M capacity key value (ws ++ ws') ↔ Outlives M capacity key value ws' := by
  obtain ⟨w, hw, rfl⟩ := hkey
  have hmem : w.write 0 ∈ shardLog M (M.home w.key) ws' :=
    List.mem_map_of_mem (List.mem_filter.mpr ⟨hw, by simp⟩)
  rw [← map_value_replay_iff hfree,
    ← map_value_replay_iff fun v hv => hfree v (List.mem_append_right _ hv), shardLog_append,
    WriteLog.replay_append, WriteLog.lookup_replay_of_mentioned
      (WriteLog.card_replay_le (Nat.zero_le _) _) hmem (WriteCommand.key_write 0 w)]

end Keeping

namespace Daemon

/-- **What a recovery keeps** of lines without ttls. -/
theorem get_recover_iff {s : Daemon M} (hfree : ∀ w ∈ s.left, w.ttl = none) (clock : RecoveryClock)
    (key : Bytes) (now : TimePoint) (value : Bytes) :
    ((s.recover clock).get key now).1 = some value ↔
      Outlives M s.cache.maxKeys key value s.left := by
  rw [recover, get_recoverFromDisk s.cache.maxKeys clock hfree]
  exact map_value_replay_iff hfree

/-! ## The invariant -/

/-- What the snapshot thread holds comes from commands. -/
def Dumped (issued : List WriteCommand) : DumpPc M → Prop
  | .idle => True
  | .collect _ _ items => ∀ item ∈ items, item.command ∈ issued
  | .remove text => ∀ w ∈ readBack text, w ∈ issued
  | .rename text => ∀ w ∈ readBack text, w ∈ issued

theorem Dumped.snoc {issued : List WriteCommand} {pc : DumpPc M} (h : Dumped issued pc)
    (w : WriteCommand) : Dumped (issued ++ [w]) pc := by
  cases pc with
  | idle => trivial
  | collect now rest items => exact fun item hitem => List.mem_append_left _ (h item hitem)
  | remove text | rename text => exact fun v hv => List.mem_append_left _ (h v hv)

/-- A shard holds what the writes to it stand for, and that always fitted into it. -/
structure Live (cap : ℕ) (ws : List (Write Bytes (Record Bytes)))
    (xs : RecencyList Bytes (Record Bytes)) : Prop where
  lookup : ∀ k, xs.lookup k = WriteLog.standing k ws
  fits : ∀ l, l <+: ws → (WriteLog.contents l).card ≤ cap

/-- A write without a ttl stores what it says and leaves what was stored before. -/
theorem stored_applyWrite {xs : Fin M.params.numShards → RecencyList Bytes (Record Bytes)}
    {issued : List WriteCommand} (h : ∀ i k r, (xs i).lookup k = some r →
      .set k r.value none ∈ issued ∧ r.deadline = none) {w : WriteCommand} (hfree : w.ttl = none)
    (now : TimePoint) (cap : ℕ) (i : Fin M.params.numShards) (k : Bytes) (r : Record Bytes)
    (hr : (Function.update xs (M.home w.key) ((w.write now).apply cap (xs (M.home w.key))) i).lookup
      k = some r) : .set k r.value none ∈ issued ++ [w] ∧ r.deadline = none := by
  have hold : ∀ j, (xs j).lookup k = some r →
      .set k r.value none ∈ issued ++ [w] ∧ r.deadline = none :=
    fun j hj => ⟨List.mem_append_left _ (h j k r hj).1, (h j k r hj).2⟩
  by_cases hi : i = M.home w.key
  · subst hi
    rw [Function.update_self] at hr
    rcases Write.lookup_apply hr with hput | ⟨-, hprev⟩
    · refine ⟨List.mem_append_right _ ?_, deadline_of_write hfree hput⟩
      cases w with
      | del key => cases hput
      | set key value ttl =>
          cases hfree
          cases hput
          exact List.mem_singleton_self _
    · exact hold _ hprev
  · rw [Function.update_of_ne hi] at hr
    exact hold i hr

theorem Live.nil (cap : ℕ) : Live cap [] ∅ := by
  refine ⟨fun k => rfl, fun l hl => ?_⟩
  rw [List.prefix_nil.mp hl]
  exact Nat.zero_le _

/-- A write that evicts nothing keeps every shard live. -/
theorem Live.applyWrite {c : ShardedCache M.params}
    {xs : Fin M.params.numShards → RecencyList Bytes (Record Bytes)} (R : c.Rep xs)
    {ws : List WriteCommand} {w : WriteCommand} {now : TimePoint} (hfree : w.ttl = none)
    (hevictions : (MiniRedis.applyWrite now w c).counters.evictions = 0) {i : Fin M.params.numShards}
    (hcap : capacityOf M.params c.maxKeys i ≠ 0)
    (L : Live (capacityOf M.params c.maxKeys i) (shardLog M i ws) (xs i)) :
    Live (capacityOf M.params c.maxKeys i) (shardLog M i (ws ++ [w]))
      (Function.update xs (M.home w.key) ((w.write now).apply
        (capacityOf M.params c.maxKeys (M.home w.key)) (xs (M.home w.key))) i) := by
  have hlookup := R.standing_applyWrite hfree hevictions hcap L.lookup
  refine ⟨hlookup, ?_⟩
  intro l hl
  by_cases hi : i = M.home w.key
  · subst hi
    rw [shardLog_append, shardLog_singleton_self] at hl hlookup
    rcases List.prefix_concat_iff.mp hl with rfl | hl
    · have hcard := (R.applyWrite now w).card_le_capacityOf (M.home w.key)
      rw [maxKeys_applyWrite] at hcard
      refine le_of_eq_of_le (AList.card_eq_of_lookup fun k => ?_) hcard
      rw [WriteLog.lookup_contents, hlookup]
    · exact L.fits l hl
  · rw [shardLog_append, shardLog_singleton_of_ne hi, List.append_nil] at hl
    exact L.fits l hl

/-- Whatever is stored, waits, is logged or is shown by a snapshot was issued, and as long as nothing
is evicted the shards hold what was issued; `ws` are the commands that were put into the queue. -/
structure Sound (capacity : ℕ) (s : Daemon M) (ws : List WriteCommand)
    (xs : Fin M.params.numShards → RecencyList Bytes (Record Bytes)) : Prop where
  maxKeys : s.cache.maxKeys = capacity
  rep : s.cache.Rep xs
  valid : ∀ w ∈ s.issued, w.Storable ∧ w.ttl = none
  stored : ∀ i k r, (xs i).lookup k = some r → .set k r.value none ∈ s.issued ∧ r.deadline = none
  waiting : ∀ client w, s.pending client = some w → w ∈ s.issued
  logged : ∀ w ∈ ws, w ∈ s.issued
  aof : ∃ added, AofWorker.InOrder [] (ws.map WriteCommand.line) added s.aof
  dumped : Dumped s.issued s.dump
  shown : ∀ w ∈ readBack (s.snapshot.getD []), w ∈ s.issued
  live : s.cache.counters.evictions = 0 → ∀ i, capacityOf M.params capacity i ≠ 0 →
    Live (capacityOf M.params capacity i) (shardLog M i s.issued) (xs i)

/-- Where the commands are that were put into the queue: their lines were cut off by a rewrite, are
in the file to the end, or are not. A part of a line, with which the file may end, is read as
`torn`. -/
structure Filed (s : Daemon M) (ws cut kept rest torn : List WriteCommand) : Prop where
  all : ws = cut ++ kept ++ rest
  flushed : s.flushed = cut ++ kept
  cut_nil : s.aof.truncated = [] → cut = []
  read : readBack s.aof.file = kept ++ torn
  torn_cases : torn = [] ∨ ∃ w rest' t, rest = w :: rest' ∧ torn = [t] ∧ t.Shortens w

theorem Filed.ttl_torn {s : Daemon M} {ws cut kept rest torn : List WriteCommand}
    (F : Filed s ws cut kept rest torn) : ∀ w ∈ torn, w.ttl = none := by
  rcases F.torn_cases with rfl | ⟨v, rest', t, -, rfl, ht⟩
  · simp
  · intro w hw
    rw [List.mem_singleton.mp hw]
    exact ht.ttl_eq

namespace Sound
variable {capacity : ℕ} {s : Daemon M} {ws : List WriteCommand}
  {xs : Fin M.params.numShards → RecencyList Bytes (Record Bytes)}

theorem init (capacity : ℕ) : Sound capacity (Daemon.init M capacity) [] fun _ => ∅ where
  maxKeys := rfl
  rep := ShardedCache.Rep.construct capacity
  valid := by simp [Daemon.init]
  stored := fun _ _ _ h => by cases h
  waiting := fun _ _ h => by cases h
  logged := by simp
  aof := ⟨[], .start []⟩
  dumped := trivial
  shown := by simp [Daemon.init]
  live := fun _ i _ => .nil _

theorem update (S : Sound capacity s ws xs) {w : WriteCommand} (hw : w.Storable)
    (hfree : w.ttl = none) (client : ℕ) (now : TimePoint) :
    Sound capacity
      { s with
        cache := applyWrite now w s.cache
        pending := Function.update s.pending client (some w)
        issued := s.issued ++ [w] } ws
      (Function.update xs (M.home w.key) ((w.write now).apply
        (capacityOf M.params capacity (M.home w.key)) (xs (M.home w.key)))) where
  maxKeys := (maxKeys_applyWrite now w s.cache).trans S.maxKeys
  rep := S.maxKeys ▸ S.rep.applyWrite now w
  valid := by
    intro v hv
    rcases List.mem_append.mp hv with hv | hv
    · exact S.valid v hv
    · rw [List.mem_singleton.mp hv]
      exact ⟨hw, hfree⟩
  stored := stored_applyWrite S.stored hfree now _
  waiting := by
    intro other v hv
    dsimp only at hv
    by_cases hother : other = client
    · subst hother
      rw [Function.update_self, Option.some.injEq] at hv
      exact List.mem_append_right _ (List.mem_singleton.mpr hv.symm)
    · rw [Function.update_of_ne hother] at hv
      exact List.mem_append_left _ (S.waiting other v hv)
  logged := fun v hv => List.mem_append_left _ (S.logged v hv)
  aof := S.aof
  dumped := S.dumped.snoc w
  shown := fun v hv => List.mem_append_left _ (S.shown v hv)
  live := by
    intro hevictions i hcap
    have hbefore : s.cache.counters.evictions = 0 :=
      Nat.eq_zero_of_le_zero ((S.rep.evictions_le_applyWrite now w).trans hevictions.le)
    have L := S.live hbefore i hcap
    have hmax := S.maxKeys
    subst hmax
    exact L.applyWrite S.rep hfree hevictions hcap

theorem enqueue (S : Sound capacity s ws xs) {client : ℕ} {w : WriteCommand}
    (hw : s.pending client = some w) :
    Sound capacity
      { s with
        aof := s.aof.step (.enqueueLine w.line)
        pending := Function.update s.pending client none } (ws ++ [w]) xs := by
  obtain ⟨added, I⟩ := S.aof
  refine { S with waiting := ?_, logged := ?_, aof := ⟨added, ?_⟩ }
  · intro other v hv
    dsimp only at hv
    by_cases hother : other = client
    · subst hother
      rw [Function.update_self] at hv
      cases hv
    · rw [Function.update_of_ne hother] at hv
      exact S.waiting other v hv
  · intro v hv
    rcases List.mem_append.mp hv with hv | hv
    · exact S.logged v hv
    · rw [List.mem_singleton.mp hv]
      exact S.waiting client w hw
  · rw [List.map_append]
    exact I.enqueueLine w.line

theorem dumpStep (S : Sound capacity s ws xs) (t : Instant) (ord : HashOrder Bytes Bytes) :
    Sound capacity (s.dumpStep t ord) ws xs := by
  have hdumped := S.dumped
  cases hd : s.dump with
  | idle =>
      simp only [Daemon.dumpStep, hd]
      exact { S with dumped := by simp [Dumped] }
  | collect now rest items =>
      rw [hd] at hdumped
      cases rest with
      | nil =>
          simp only [Daemon.dumpStep, hd]
          refine { S with dumped := ?_ }
          intro w hw
          rw [readBack_snapshotText (fun item hitem => (S.valid _ (hdumped item hitem)).1)] at hw
          obtain ⟨item, hitem, rfl⟩ := List.mem_map.mp hw
          exact hdumped item hitem
      | cons i rest =>
          simp only [Daemon.dumpStep, hd]
          refine { S with dumped := ?_ }
          intro item hitem
          rcases List.mem_append.mp hitem with hitem | hitem
          · exact hdumped item hitem
          · exact S.rep.command_mem S.stored (List.mem_flatMap.mpr ⟨i, List.mem_finRange i, hitem⟩)
  | remove text =>
      rw [hd] at hdumped
      simp only [Daemon.dumpStep, hd]
      exact { S with dumped := hdumped, shown := by simp }
  | rename text =>
      rw [hd] at hdumped
      simp only [Daemon.dumpStep, hd]
      exact { S with dumped := trivial, shown := hdumped }

/-- **A step keeps the invariant.** -/
theorem step (S : Sound capacity s ws xs) {a : DaemonAction M} {s' : Daemon M} (h : Step s a s') :
    ∃ ys, Sound capacity s' (ws ++ s.queued a) ys := by
  obtain ⟨added, I⟩ := S.aof
  cases a with
  | update client line now =>
      obtain ⟨w, hw, hfree, -, rfl⟩ := update_cases h
      rw [queued, List.append_nil]
      exact ⟨_, S.update (storable_of_write? hw) hfree client now⟩
  | enqueue client =>
      obtain ⟨w, hw, rfl⟩ := Option.map_eq_some_iff.mp h
      rw [queued, hw]
      exact ⟨xs, S.enqueue hw⟩
  | requestStop | requestAofRewrite =>
      cases h
      rw [queued, List.append_nil]
      exact ⟨xs, { S with aof := ⟨added, I.text, I.order, I.passed, I.cut⟩ }⟩
  | work seesStop passed =>
      cases h
      rw [queued, List.append_nil]
      exact ⟨xs, { S with aof := I.work seesStop passed }⟩
  | dump t ord =>
      cases h
      rw [queued, List.append_nil]
      exact ⟨xs, S.dumpStep t ord⟩

/-! ## The files -/

/-- What rewrites cut off, and what the file has of the lines that were enqueued after it. -/
theorem exists_texts (S : Sound capacity s ws xs) :
    ∃ cut kept rest, ws = cut ++ kept ++ rest ∧
      s.aof.truncated = aofText (cut.map WriteCommand.line) ∧
      s.aof.file ++ s.aof.buffer = aofText (kept.map WriteCommand.line) := by
  obtain ⟨added, I⟩ := S.aof
  have horder := I.order
  rw [List.append_assoc] at horder
  obtain ⟨all, rest, rfl, rfl, -⟩ := List.map_eq_append_iff.mp horder.symm
  have htext := I.text
  rw [List.nil_append] at htext
  rcases I.cut with hnone | ⟨old, ⟨new, hold⟩, hcut⟩
  · rw [hnone, List.nil_append] at htext
    exact ⟨[], all, rest, rfl, hnone, htext⟩
  · obtain ⟨cut, kept, rfl, rfl, rfl⟩ := List.map_eq_append_iff.mp hold.symm
    refine ⟨cut, kept, rest, rfl, hcut, ?_⟩
    rw [hcut, List.nil_append, List.map_append, aofText_append] at htext
    exact List.append_cancel_left htext

/-- **The commands that were put into the queue**, by where they are. -/
theorem exists_filed (S : Sound capacity s ws xs) :
    ∃ cut kept rest torn, Filed s ws cut kept rest torn := by
  obtain ⟨cut, kept, rest, rfl, hcut, hkept⟩ := S.exists_texts
  have hvalid : ∀ w ∈ cut ++ kept ++ rest, w.Storable ∧ w.ttl = none :=
    fun w hw => S.valid w (S.logged w hw)
  have hstorable : ∀ w ∈ kept, w.Storable := fun w hw => (hvalid w (by simp [hw])).1
  obtain ⟨hold, hwhole⟩ := cut_aofText fun w (hw : w ∈ cut) => (hvalid w (by simp [hw])).1
  rw [← hcut] at hold hwhole
  have hpart := List.take_append_drop (s.aof.file.count newline) kept
  refine ⟨cut, kept.take (s.aof.file.count newline), kept.drop (s.aof.file.count newline) ++ rest,
    (Splitting.emit (Splitting.unterminated newline s.aof.file)).filterMap replayLine,
    ?_, ?_, ?_, readBack_part hstorable hkept, ?_⟩
  · simp only [List.append_assoc]
    rw [← List.append_assoc (kept.take _), hpart]
  · rw [flushed, Splitting.terminated_append, hold, hwhole, List.nil_append,
      terminated_part hstorable hkept, ← List.map_append]
    refine filterMap_replayLine fun w hw => ?_
    rcases List.mem_append.mp hw with hw | hw
    · exact (hvalid w (by simp [hw])).1
    · exact hstorable w (List.mem_of_mem_take hw)
  · intro hnone
    rw [hnone] at hcut
    cases cut with
    | nil => rfl
    | cons w cut => simp [aofText] at hcut
  · by_cases htail : Splitting.unterminated newline s.aof.file = []
    · rw [htail]
      exact .inl rfl
    · obtain ⟨w, ws', hnext, hline⟩ := exists_next_of_unterminated hstorable hkept htail
      have hdrop : kept.drop (s.aof.file.count newline) = w :: ws' :=
        List.append_cancel_left (hpart.trans hnext)
      have hw : w ∈ kept := List.mem_of_mem_drop (hdrop ▸ List.mem_cons_self)
      rw [Splitting.emit_of_ne_nil htail, hdrop]
      cases ht : replayLine (Splitting.unterminated newline s.aof.file) with
      | none => exact .inl (by simp [ht])
      | some t =>
          refine .inr ⟨w, ws' ++ rest, t, rfl, by simp [ht], ?_⟩
          exact shortens_of_part (hstorable w hw) (hvalid w (by simp [hw])).2 hline ht

/-- Nothing that a recovery reads has a ttl, also if the file ends inside a line. -/
theorem ttl_left (S : Sound capacity s ws xs) : ∀ w ∈ s.left, w.ttl = none := by
  obtain ⟨cut, kept, rest, torn, F⟩ := S.exists_filed
  intro w hw
  rcases List.mem_append.mp hw with hw | hw
  · exact (S.valid w (S.shown w hw)).2
  · rw [F.read] at hw
    rcases List.mem_append.mp hw with hw | hw
    · exact (S.valid w (S.logged w (by simp [F.all, hw]))).2
    · exact F.ttl_torn w hw

end Sound

theorem exists_sound_step {capacity : ℕ} {s s' : Daemon M} {a : DaemonAction M}
    (hs : ∃ ws xs, Sound capacity s ws xs) (h : Step s a s') : ∃ ws xs, Sound capacity s' ws xs := by
  obtain ⟨ws, xs, S⟩ := hs
  obtain ⟨ys, S'⟩ := S.step h
  exact ⟨_, ys, S'⟩

/-! ## Runs on fixed inputs -/

/-- The process after some of its steps, with room for two keys in a shard. -/
def after (acts : List (DaemonAction Platform.oneShard)) : Option (Daemon Platform.oneShard) :=
  Transition.exec step acts (init Platform.oneShard 128)

theorem of_after {acts : List (DaemonAction Platform.oneShard)} {s : Daemon Platform.oneShard}
    (hs : after acts = some s) {β : Type} {f : Daemon Platform.oneShard → β} {b : β}
    (h : (after acts).map f = some b) : f s = b := by
  rw [hs] at h
  exact Option.some.inj h

/-- The thread of the append-only file makes some steps, and its stream passes on nothing before it
is flushed. -/
def working (steps : ℕ) : List (DaemonAction Platform.oneShard) :=
  List.replicate steps (.work false 0)

/-- A client sets a key, and the line is flushed. -/
def flushedSet : List (DaemonAction Platform.oneShard) :=
  [.update 0 (ascii "SET a 1") 0, .enqueue 0] ++ working 4

end Daemon
end MiniRedis
