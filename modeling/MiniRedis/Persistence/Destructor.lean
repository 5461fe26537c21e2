import MiniRedis.Cache.ShardLocal
import MiniRedis.Persistence.LiveSnapshot

/-!
# The process and its end

Three threads work beside the clients: the one that writes the append-only file, the one that writes
snapshots, and the reaper. The destructor of the processor stores a stop for the first two and joins
them, and then the same for the reaper. A thread goes on until it loads the stop, which may be some
rounds later, and it may be in the middle of a round when the destructor begins.

What is in the files in the end is what an orderly shutdown in one step leaves (`ShutDown`), up to what
the reaper has removed in the meantime and what a rewrite that was still pending has cut off.
-/
namespace MiniRedis
variable {M : Platform}

/-- Where `snapshot_loop` is. -/
inductive SnapshotLoopPc
  /-- `wait_for`, which ends at its timeout at the latest, and the test for a stop. -/
  | waiting
  /-- `write_snapshot_file`. The last call, after the loop, is told apart by a flag. -/
  | writing (last : Bool)
  | exited
  deriving DecidableEq, Repr

/-- Where `reaper_loop` is. -/
inductive ReaperPc (M : Platform)
  | test
  | asleep
  /-- `cleanup_expired` visits the remaining shards. -/
  | cleanup (now : TimePoint) (rest : List (Fin M.params.numShards))
  | exited
  deriving DecidableEq

/-- Where the destructor of the processor is. -/
inductive DestructorPc
  /-- It has not been called. -/
  | running
  | joinAof
  | joinSnapshot
  | stopReaper
  | joinReaper
  | destroyed
  deriving DecidableEq, Repr

/-- So many steps of the destructor lie between it and its end. -/
def DestructorPc.toGo : DestructorPc → ℕ
  | .running => 5
  | .joinAof => 4
  | .joinSnapshot => 3
  | .stopReaper => 2
  | .joinReaper => 1
  | .destroyed => 0

inductive Worker
  | aof
  | snapshot
  | reaper
  deriving DecidableEq, Repr

structure Process (M : Platform) where
  daemon : Daemon M
  /-- The clients with a call of `set` or `del` in progress. -/
  calls : Finset ℕ
  loop : SnapshotLoopPc
  reaper : ReaperPc M
  destructor : DestructorPc
  stopReaper : Bool
  /-- The workers whose loads return the stop that was stored for them. -/
  seen : Worker → Bool
  /-- The shards that the reaper has cleaned up. Nothing depends on it. -/
  reaped : List (TimePoint × Fin M.params.numShards)

inductive ProcessAction (M : Platform)
  /-- A call of `set` or `del` takes effect in the cache. -/
  | write (client : ℕ) (w : WriteCommand) (now : TimePoint)
  /-- Its line is put into the queue, and it returns. -/
  | enqueue (client : ℕ)
  | get (key : Bytes) (now : TimePoint)
  | requestAofRewrite
  /-- The destructor is called, and stores the stop. -/
  | destroy
  /-- The stop that is stored for a worker becomes visible to it. -/
  | propagate (worker : Worker)
  | aof (passed : ℕ)
  | snapshot (t : Instant) (ord : HashOrder Bytes Bytes)
  | reaper (now : TimePoint)
  | destructor
  /-- The rest of the program. -/
  | other

namespace Process

/-- The processor has been constructed: the files are replayed and the threads started. -/
def start (M : Platform) (capacity : ℕ) (clock : RecoveryClock) (snapshot aof : Bytes) :
    Process M where
  daemon :=
    { Daemon.init M capacity with
      cache := (Server.start M capacity clock snapshot aof).cache
      aof := .start aof
      snapshot := some snapshot }
  calls := ∅
  loop := .waiting
  reaper := .test
  destructor := .running
  stopReaper := false
  seen := fun _ => false
  reaped := []

/-- The stop of a worker is stored. The two of the persistence code share one. -/
def Stopped (s : Process M) : Worker → Bool
  | .aof | .snapshot => s.daemon.aof.stop
  | .reaper => s.stopReaper

def write (client : ℕ) (w : WriteCommand) (now : TimePoint) (s : Process M) : Process M :=
  { s with
    daemon :=
      { s.daemon with
        cache := applyWrite now w s.daemon.cache
        pending := Function.update s.daemon.pending client (some w)
        issued := s.daemon.issued ++ [w] }
    calls := insert client s.calls }

def enqueue (client : ℕ) (w : WriteCommand) (s : Process M) : Process M :=
  { s with
    daemon :=
      { s.daemon with
        aof := s.daemon.aof.step (.enqueueLine w.line)
        pending := Function.update s.daemon.pending client none }
    calls := s.calls.erase client }

/-- A step of `aof_loop`. -/
def aofStep (passed : ℕ) (s : Process M) : Option (Process M) :=
  if s.daemon.aof.pc = .exited then none
  else some { s with daemon := { s.daemon with aof := s.daemon.aof.work (s.seen .aof) passed } }

/-- Where the loop goes on when a step of `write_snapshot_file` has been made. -/
def afterDump (last : Bool) : DumpPc M → SnapshotLoopPc
  | .rename _ => if last then .exited else .waiting
  | .idle | .collect .. | .remove _ => .writing last

/-- A step of `snapshot_loop`. -/
def snapshotStep (t : Instant) (ord : HashOrder Bytes Bytes) (s : Process M) : Option (Process M) :=
  match s.loop with
  | .waiting => some { s with loop := .writing (s.seen .snapshot) }
  | .writing last =>
      some { s with daemon := s.daemon.dumpStep t ord, loop := afterDump last s.daemon.dump }
  | .exited => none

/-- A step of `reaper_loop`. -/
def reaperStep (now : TimePoint) (s : Process M) : Option (Process M) :=
  match s.reaper with
  | .test => some { s with reaper := if s.seen .reaper then .exited else .asleep }
  | .asleep => some { s with reaper := .cleanup now (List.finRange M.params.numShards) }
  | .cleanup now (i :: rest) =>
      some { s with
        daemon := { s.daemon with cache := s.daemon.cache.cleanupShard now i }
        reaper := .cleanup now rest
        reaped := s.reaped ++ [(now, i)] }
  | .cleanup _ [] => some { s with reaper := .test }
  | .exited => none

/-- A step of the destructor, once it has stored the stop of the persistence code. -/
def destructorStep (s : Process M) : Option (Process M) :=
  match s.destructor with
  | .joinAof =>
      if s.daemon.aof.pc = .exited then some { s with destructor := .joinSnapshot } else none
  | .joinSnapshot => if s.loop = .exited then some { s with destructor := .stopReaper } else none
  | .stopReaper => some { s with destructor := .joinReaper, stopReaper := true }
  | .joinReaper => if s.reaper = .exited then some { s with destructor := .destroyed } else none
  | .running | .destroyed => none

/-- No call is in progress when the destructor is called, and none is made afterwards. -/
def step : ProcessAction M → Process M → Option (Process M)
  | .write client w now, s =>
      if s.destructor = .running ∧ client ∉ s.calls then some (s.write client w now) else none
  | .enqueue client, s => (s.daemon.pending client).bind fun w =>
      if s.destructor = .running ∧ client ∈ s.calls then some (s.enqueue client w) else none
  | .get key now, s =>
      if s.destructor = .running then
        some { s with daemon := { s.daemon with cache := (s.daemon.cache.get key now).2 } }
      else none
  | .requestAofRewrite, s =>
      if s.destructor = .running then
        some { s with daemon := { s.daemon with aof := s.daemon.aof.step .requestAofRewrite } }
      else none
  | .destroy, s =>
      if s.destructor = .running ∧ s.calls = ∅ then
        some { s with
          daemon := { s.daemon with aof := s.daemon.aof.step .requestStop }
          destructor := .joinAof }
      else none
  | .propagate worker, s =>
      if s.Stopped worker ∧ s.seen worker = false then
        some { s with seen := Function.update s.seen worker true }
      else none
  | .aof passed, s => s.aofStep passed
  | .snapshot t ord, s => s.snapshotStep t ord
  | .reaper now, s => s.reaperStep now
  | .destructor, s => s.destructorStep
  | .other, s => some s

/-- `step` as a relation. -/
def Step (s : Process M) (a : ProcessAction M) (s' : Process M) : Prop := step a s = some s'

/-- What a step can do. -/
inductive Move (s : Process M) : ProcessAction M → Process M → Prop
  | write (client : ℕ) (w : WriteCommand) (now : TimePoint) (hs : s.destructor = .running) :
      Move s (.write client w now) (s.write client w now)
  | enqueue (client : ℕ) (w : WriteCommand) (hs : s.destructor = .running) :
      Move s (.enqueue client) (s.enqueue client w)
  | get (key : Bytes) (now : TimePoint) (hs : s.destructor = .running) :
      Move s (.get key now)
        { s with daemon := { s.daemon with cache := (s.daemon.cache.get key now).2 } }
  | requestAofRewrite (hs : s.destructor = .running) :
      Move s .requestAofRewrite
        { s with daemon := { s.daemon with aof := s.daemon.aof.step .requestAofRewrite } }
  | destroy (hs : s.destructor = .running) :
      Move s .destroy
        { s with
          daemon := { s.daemon with aof := s.daemon.aof.step .requestStop }
          destructor := .joinAof }
  | propagate (worker : Worker) (hstop : s.Stopped worker = true) :
      Move s (.propagate worker) { s with seen := Function.update s.seen worker true }
  | aof (passed : ℕ) (hpc : s.daemon.aof.pc ≠ .exited) :
      Move s (.aof passed)
        { s with daemon := { s.daemon with aof := s.daemon.aof.work (s.seen .aof) passed } }
  | wake (t : Instant) (ord : HashOrder Bytes Bytes) (hloop : s.loop = .waiting) :
      Move s (.snapshot t ord) { s with loop := .writing (s.seen .snapshot) }
  | dump (t : Instant) (ord : HashOrder Bytes Bytes) (last : Bool) (hloop : s.loop = .writing last) :
      Move s (.snapshot t ord)
        { s with daemon := s.daemon.dumpStep t ord, loop := afterDump last s.daemon.dump }
  | test (now : TimePoint) (hpc : s.reaper = .test) :
      Move s (.reaper now) { s with reaper := if s.seen .reaper then .exited else .asleep }
  | sample (now : TimePoint) (hpc : s.reaper = .asleep) :
      Move s (.reaper now) { s with reaper := .cleanup now (List.finRange M.params.numShards) }
  | cleanup (now now' : TimePoint) (i : Fin M.params.numShards) (rest : List (Fin M.params.numShards))
      (hpc : s.reaper = .cleanup now (i :: rest)) :
      Move s (.reaper now')
        { s with
          daemon := { s.daemon with cache := s.daemon.cache.cleanupShard now i }
          reaper := .cleanup now rest
          reaped := s.reaped ++ [(now, i)] }
  | round (now now' : TimePoint) (hpc : s.reaper = .cleanup now []) :
      Move s (.reaper now') { s with reaper := .test }
  | joinAof (hs : s.destructor = .joinAof) (hpc : s.daemon.aof.pc = .exited) :
      Move s .destructor { s with destructor := .joinSnapshot }
  | joinSnapshot (hs : s.destructor = .joinSnapshot) (hloop : s.loop = .exited) :
      Move s .destructor { s with destructor := .stopReaper }
  | stopReaper (hs : s.destructor = .stopReaper) :
      Move s .destructor { s with destructor := .joinReaper, stopReaper := true }
  | joinReaper (hs : s.destructor = .joinReaper) (hpc : s.reaper = .exited) :
      Move s .destructor { s with destructor := .destroyed }
  | other : Move s .other s

section Inversion
variable {s s' : Process M}

theorem move_of_snapshotStep {t : Instant} {ord : HashOrder Bytes Bytes}
    (h : s.snapshotStep t ord = some s') : Move s (.snapshot t ord) s' := by
  unfold snapshotStep at h
  split at h
  · next hloop =>
    cases h
    exact .wake t ord hloop
  · next last hloop =>
    cases h
    exact .dump t ord last hloop
  · cases h

theorem move_of_reaperStep {now : TimePoint} (h : s.reaperStep now = some s') :
    Move s (.reaper now) s' := by
  unfold reaperStep at h
  split at h
  · next hpc =>
    cases h
    exact .test now hpc
  · next hpc =>
    cases h
    exact .sample now hpc
  · next now' i rest hpc =>
    cases h
    exact .cleanup now' now i rest hpc
  · next now' hpc =>
    cases h
    exact .round now' now hpc
  · cases h

theorem move_of_destructorStep (h : s.destructorStep = some s') : Move s .destructor s' := by
  unfold destructorStep at h
  split at h
  · next hs =>
    obtain ⟨hpc, h⟩ := Option.ite_none_right_eq_some.mp h
    cases h
    exact .joinAof hs hpc
  · next hs =>
    obtain ⟨hloop, h⟩ := Option.ite_none_right_eq_some.mp h
    cases h
    exact .joinSnapshot hs hloop
  · next hs =>
    cases h
    exact .stopReaper hs
  · next hs =>
    obtain ⟨hpc, h⟩ := Option.ite_none_right_eq_some.mp h
    cases h
    exact .joinReaper hs hpc
  · cases h
  · cases h

theorem move_of_step {a : ProcessAction M} (h : Step s a s') : Move s a s' := by
  cases a with
  | write client w now =>
      obtain ⟨hguard, h⟩ := Option.ite_none_right_eq_some.mp h
      cases h
      exact .write client w now hguard.1
  | enqueue client =>
      obtain ⟨w, -, h⟩ := Option.bind_eq_some_iff.mp h
      obtain ⟨hguard, h⟩ := Option.ite_none_right_eq_some.mp h
      cases h
      exact .enqueue client w hguard.1
  | get key now =>
      obtain ⟨hs, h⟩ := Option.ite_none_right_eq_some.mp h
      cases h
      exact .get key now hs
  | requestAofRewrite =>
      obtain ⟨hs, h⟩ := Option.ite_none_right_eq_some.mp h
      cases h
      exact .requestAofRewrite hs
  | destroy =>
      obtain ⟨hguard, h⟩ := Option.ite_none_right_eq_some.mp h
      cases h
      exact .destroy hguard.1
  | propagate worker =>
      obtain ⟨hguard, h⟩ := Option.ite_none_right_eq_some.mp h
      cases h
      exact .propagate worker hguard.1
  | aof passed =>
      obtain ⟨hpc, h⟩ := Option.ite_none_left_eq_some.mp h
      cases h
      exact .aof passed hpc
  | snapshot t ord => exact move_of_snapshotStep h
  | reaper now => exact move_of_reaperStep h
  | destructor => exact move_of_destructorStep h
  | other =>
      cases h
      exact .other

end Inversion

/-- What the process has and does, without its threads: the lines on their way to the file are in the
queue. -/
def server (s : Process M) : Server M where
  processor := ⟨s.daemon.cache, s.daemon.aof.unwritten ++ s.daemon.aof.queue⟩
  aof := s.daemon.aof.file ++ s.daemon.aof.buffer
  snapshot := s.daemon.snapshot.getD []

end Process

/-! ## Clean-ups of single shards -/

namespace ShardedCache
variable {Key Value : Type} [DecidableEq Key] {P : CacheParams Key Value}

/-- The cache after some shards have been cleaned up. -/
def reaped (l : List (TimePoint × Fin P.numShards)) (c : ShardedCache P) : ShardedCache P :=
  l.foldl (fun c x => c.cleanupShard x.1 x.2) c

theorem reaped_snoc (l : List (TimePoint × Fin P.numShards)) (x : TimePoint × Fin P.numShards)
    (c : ShardedCache P) : c.reaped (l ++ [x]) = (c.reaped l).cleanupShard x.1 x.2 := by
  simp [reaped]

theorem shards_cleanupShard_of_ne {i j : Fin P.numShards} (h : j ≠ i) (now : TimePoint)
    (c : ShardedCache P) : (c.cleanupShard now i).shards j = c.shards j := by
  simp [cleanupShard, h]

end ShardedCache

namespace Locked
variable {Key Value : Type} [DecidableEq Key] {l m : Locked Key Value}

theorem abreast_cleanup (h : l.shard.core = m.shard.core) (now : TimePoint) :
    Abreast l m (l.cleanupLocked now) (m.cleanupLocked now) := by
  have hentries : l.shard.map.entries = m.shard.map.entries :=
    congrArg (fun core : ShardCore Key Value => core.map.entries) h
  unfold cleanupLocked
  rw [← hentries]
  clear hentries
  generalize l.shard.map.entries = es
  induction es generalizing l m with
  | nil => exact .refl h
  | cons x es ih =>
      rw [List.foldl_cons, List.foldl_cons]
      cases isExpired x.2 now with
      | false => exact ih h
      | true =>
          have hexpire := abreast_expire h x.1 x.2
          exact hexpire.trans (ih hexpire.core)

end Locked

namespace ShardedCache
variable {c d : ShardedCache M.params}

/-- What a clean-up leaves in a shard depends on that shard alone. -/
theorem core_cleanupShard {i : Fin M.params.numShards} (h : (c.shards i).core = (d.shards i).core)
    (now : TimePoint) :
    ((c.cleanupShard now i).shards i).core = ((d.cleanupShard now i).shards i).core := by
  have habreast := Locked.abreast_cleanup (l := c.locked i) (m := d.locked i) h now
  simpa [cleanupShard] using habreast.core

end ShardedCache

theorem Daemon.dumpStep_aof (t : Instant) (ord : HashOrder Bytes Bytes) (s : Daemon M) :
    (s.dumpStep t ord).aof = s.aof := by
  obtain ⟨dump, snapshot, visited, shown, heq⟩ := s.dumpStep_frame t ord
  rw [heq]

namespace AofWorker
variable {s : AofWorker} {seesStop : Bool} {passed : ℕ}

@[simp] theorem stop_work (s : AofWorker) (seesStop : Bool) (passed : ℕ) :
    (s.work seesStop passed).stop = s.stop := by
  unfold work
  split <;> try rfl
  split <;> rfl

theorem truncated_work (s : AofWorker) (seesStop : Bool) (passed : ℕ) :
    s.truncated <+: (s.work seesStop passed).truncated := by
  unfold work
  split <;> try exact List.prefix_rfl
  · split <;> exact List.prefix_rfl
  · exact List.prefix_append _ _

/-- The last round is begun by a test that sees the stop. -/
theorem of_drain_true (h : (s.work seesStop passed).pc = .drain true) :
    seesStop = true ∧ s.stop = true := by
  cases hpc : s.pc with
  | test => simpa [work, hpc] using h
  | drain last =>
      simp only [work, hpc] at h
      split at h
      · split at h <;> cases h
      · cases h
  | write last rest => cases rest <;> cases last <;> simp [work, hpc] at h
  | exchange =>
      simp only [work, hpc] at h
      split at h <;> cases h
  | truncate | exited => simp [work, hpc] at h

end AofWorker

/-- The server after its reaper has cleaned up some shards. -/
def Server.reaped (l : List (TimePoint × Fin M.params.numShards)) (s : Server M) : Server M :=
  { s with processor := { s.processor with cache := s.cache.reaped l } }

theorem Daemon.Attained.reaped {capacity : ℕ} {c : ShardedCache M.params}
    (h : Daemon.Attained capacity c) (l : List (TimePoint × Fin M.params.numShards)) :
    Daemon.Attained capacity (c.reaped l) := by
  induction l generalizing c with
  | nil => exact h
  | cons x l ih => exact ih (h.apply (.reap x.1 x.2))

namespace Process

/-! ## The last snapshot -/

/-- How far a snapshot has come that is collected while the reaper cleans up. Of the clean-ups `later`
that there have been since the cache was `c`, those that count are the ones that came before the
visit to their shard. -/
def Collects (c : ShardedCache M.params) (later : List (TimePoint × Fin M.params.numShards))
    (cache : ShardedCache M.params) : DumpPc M → Prop
  | .idle => True
  | .collect now rest items => ∃ kept seen,
      ∃ order : Fin M.params.numShards → HashOrder Bytes Bytes,
      kept.Sublist later ∧ List.finRange M.params.numShards = seen ++ rest ∧
      (∀ i ∈ rest, ((c.reaped kept).shards i).core = (cache.shards i).core) ∧
      items = seen.flatMap fun i =>
        ((order i).order ((c.reaped kept).shards i).map).filterMap (ShardedCache.snapshotItem now)
  | .remove text | .rename text => ∃ kept ord, ∃ t : Instant, kept.Sublist later ∧
      text = snapshotText t.epochMs ((c.reaped kept).snapshotItems ord t.now)

variable {c cache : ShardedCache M.params} {later : List (TimePoint × Fin M.params.numShards)}

/-- The reaper cleans up a shard. -/
theorem Collects.reap {dump : DumpPc M} (h : Collects c later cache dump) (now : TimePoint)
    (j : Fin M.params.numShards) :
    Collects c (later ++ [(now, j)]) (cache.cleanupShard now j) dump := by
  cases dump with
  | idle => trivial
  | collect now' rest items =>
      obtain ⟨kept, seen, order, hkept, hall, hrest, rfl⟩ := h
      by_cases hj : j ∈ rest
      · -- the shard is still to be visited
        refine ⟨kept ++ [(now, j)], seen, order, hkept.append (.refl _), hall, ?_, ?_⟩
        · intro i hi
          rw [ShardedCache.reaped_snoc]
          by_cases hij : i = j
          · subst hij
            exact ShardedCache.core_cleanupShard (hrest i hi) now
          · rw [ShardedCache.shards_cleanupShard_of_ne hij, ShardedCache.shards_cleanupShard_of_ne hij]
            exact hrest i hi
        · refine List.flatMap_congr ?_
          intro i hi
          have hij : i ≠ j := by
            rintro rfl
            exact Daemon.notMem_of_finRange hall hj hi
          rw [ShardedCache.reaped_snoc, ShardedCache.shards_cleanupShard_of_ne hij]
      · refine ⟨kept, seen, order, hkept.trans (List.sublist_append_left _ _), hall, ?_, rfl⟩
        intro i hi
        have hij : i ≠ j := by
          rintro rfl
          exact hj hi
        rw [ShardedCache.shards_cleanupShard_of_ne hij]
        exact hrest i hi
  | remove text | rename text =>
      obtain ⟨kept, ord, t, hkept, rfl⟩ := h
      exact ⟨kept, ord, t, hkept.trans (List.sublist_append_left _ _), rfl⟩

/-- A step of the snapshot thread. -/
theorem Collects.dumpStep {capacity : ℕ} {s : Daemon M} (h : Collects c later s.cache s.dump)
    (hc : Daemon.Attained capacity c) (hcache : s.cache = c.reaped later) (t : Instant)
    (ord : HashOrder Bytes Bytes) : Collects c later s.cache (s.dumpStep t ord).dump := by
  cases hd : s.dump with
  | idle =>
      simp only [Daemon.dumpStep, hd]
      refine ⟨later, [], fun _ => ord, .refl _, rfl, ?_, rfl⟩
      intro i _
      rw [hcache]
  | collect now rest items =>
      rw [hd] at h
      obtain ⟨kept, seen, order, hkept, hall, hrest, rfl⟩ := h
      cases rest with
      | nil =>
          rw [List.append_nil] at hall
          obtain ⟨queue, hp⟩ := hc.reaped kept
          obtain ⟨xs, R, -⟩ := hp.deadlinesFit
          obtain ⟨ord', hord⟩ := Daemon.exists_order R order
          simp only [Daemon.dumpStep, hd]
          refine ⟨kept, ord', ⟨now, t.epochMs⟩, hkept, ?_⟩
          simp only [ShardedCache.snapshotItems, hord, hall]
      | cons i rest =>
          have hi : i ∉ seen := Daemon.notMem_of_finRange hall List.mem_cons_self
          have hmap : ((c.reaped kept).shards i).map = (s.cache.shards i).map :=
            congrArg ShardCore.map (hrest i List.mem_cons_self)
          simp only [Daemon.dumpStep, hd]
          refine ⟨kept, seen ++ [i], Function.update order i ord, hkept, by simp [hall],
            fun j hj => hrest j (List.mem_cons_of_mem i hj), ?_⟩
          simp only [List.flatMap_append, List.flatMap_cons, List.flatMap_nil, List.append_nil,
            Function.update_self, hmap]
          congr 1
          refine List.flatMap_congr ?_
          intro j hj
          have hji : j ≠ i := by
            rintro rfl
            exact hi hj
          rw [Function.update_of_ne hji]
  | remove text =>
      rw [hd] at h
      simp only [Daemon.dumpStep, hd]
      exact h
  | rename text =>
      simp only [Daemon.dumpStep, hd]
      trivial

/-- The step with which `write_snapshot_file` returns puts the file in place. -/
theorem afterDump_cases (last : Bool) (t : Instant) (ord : HashOrder Bytes Bytes) (s : Daemon M) :
    (∃ text, s.dump = .rename text ∧ afterDump last s.dump = (if last then .exited else .waiting) ∧
        (s.dumpStep t ord).dump = .idle ∧ (s.dumpStep t ord).snapshot = some text) ∨
      (∀ text, s.dump ≠ .rename text) ∧ afterDump last s.dump = .writing last := by
  cases hd : s.dump with
  | rename text => exact .inl ⟨text, rfl, rfl, by simp only [Daemon.dumpStep, hd], by
      simp only [Daemon.dumpStep, hd]⟩
  | idle | collect now rest items | remove text => exact .inr ⟨by simp, rfl⟩

/-! ## Until the destructor is called -/

/-- The process runs, and nobody has been told to stop. -/
structure Open (capacity : ℕ) (s : Process M) : Prop where
  attained : Daemon.Attained capacity s.daemon.cache
  inOrder : ∃ file lines added, AofWorker.InOrder file lines added s.daemon.aof
  stop : s.daemon.aof.stop = false
  stopReaper : s.stopReaper = false
  unseen : ∀ worker, s.seen worker = false
  aof : ¬ s.daemon.aof.Leaving ∧ s.daemon.aof.pc ≠ .drain true
  loop : s.loop = .waiting ∧ s.daemon.dump = .idle ∨ s.loop = .writing false

theorem Open.start (capacity : ℕ) (clock : RecoveryClock) (snapshot aof : Bytes) :
    (start M capacity clock snapshot aof).Open capacity where
  attained := ⟨[], .start clock snapshot aof⟩
  inOrder := ⟨aof, [], [], .start aof⟩
  stop := rfl
  stopReaper := rfl
  unseen _ := rfl
  aof := by simp [Process.start, AofWorker.Leaving, AofWorker.start]
  loop := .inl ⟨rfl, rfl⟩

variable {capacity : ℕ} {s s' : Process M}

theorem running_of_step {a : ProcessAction M} (h : Step s a s') (hrunning : s'.destructor = .running) :
    s.destructor = .running := by
  cases move_of_step h <;> first | assumption | cases hrunning

theorem Open.step (O : s.Open capacity) {a : ProcessAction M} (h : Step s a s')
    (hrunning : s'.destructor = .running) : s'.Open capacity := by
  have hs := running_of_step h hrunning
  obtain ⟨file, lines, added, I⟩ := O.inOrder
  cases move_of_step h with
  | write client w now =>
      have hattained : Daemon.Attained capacity (applyWrite now w s.daemon.cache) := by
        cases w with
        | set key value ttl => exact O.attained.apply (.set key value ttl now)
        | del key => exact O.attained.apply (.del key)
      exact { O with attained := hattained }
  | enqueue client w => exact { O with inOrder := ⟨file, _, added, I.enqueueLine w.line⟩ }
  | get key now => exact { O with attained := O.attained.apply (.get key now) }
  | requestAofRewrite =>
      exact { O with inOrder := ⟨file, lines, added, I.text, I.order, I.passed, I.cut⟩ }
  | destroy => cases hrunning
  | propagate worker hstop =>
      exfalso
      cases worker <;> simp [Stopped, O.stop, O.stopReaper] at hstop
  | aof passed =>
      refine ⟨O.attained, ⟨file, lines, I.work (s.seen .aof) passed⟩, ?_, O.stopReaper, O.unseen,
        ⟨?_, ?_⟩, O.loop⟩
      · exact (AofWorker.stop_work _ _ _).trans O.stop
      · intro hleaving
        rcases AofWorker.leaving_work hleaving with ⟨hbefore, -⟩ | ⟨hdrain, -⟩
        · exact O.aof.1 hbefore
        · exact O.aof.2 hdrain
      · intro hdrain
        have hsees := (AofWorker.of_drain_true hdrain).1
        rw [O.unseen] at hsees
        cases hsees
  | wake t ord hloop =>
      have hseen := O.unseen .snapshot
      exact { O with loop := .inr (congrArg SnapshotLoopPc.writing hseen) }
  | dump t ord last hloop =>
      obtain rfl : last = false := by simpa [hloop] using O.loop
      refine ⟨?_, ?_, ?_, O.stopReaper, O.unseen, ?_, ?_⟩
      · exact Daemon.dumpStep_cache t ord s.daemon ▸ O.attained
      · exact Daemon.dumpStep_aof t ord s.daemon ▸ O.inOrder
      · exact Daemon.dumpStep_aof t ord s.daemon ▸ O.stop
      · exact Daemon.dumpStep_aof t ord s.daemon ▸ O.aof
      · rcases afterDump_cases false t ord s.daemon with ⟨text, -, hafter, hidle, -⟩ | ⟨-, hafter⟩
        · exact .inl ⟨hafter, hidle⟩
        · exact .inr hafter
  | test | sample | round => exact { O with }
  | cleanup now now' i rest => exact { O with attained := O.attained.apply (.reap now i) }
  | joinAof | joinSnapshot | stopReaper | joinReaper => cases hrunning
  | other => exact O

/-! ## After the destructor has been called -/

/-- Where the snapshot thread is when the cache was `c` at the call of the destructor, and the reaper has
made the clean-ups `later` since then. -/
def LastSnapshot (c : ShardedCache M.params) (later : List (TimePoint × Fin M.params.numShards))
    (s : Process M) : Prop :=
  match s.loop with
  | .waiting => s.daemon.dump = .idle
  | .writing false => True
  | .writing true => Collects c later s.daemon.cache s.daemon.dump
  | .exited => ∃ kept ord, ∃ t : Instant, kept.Sublist later ∧ s.daemon.snapshot =
      some (snapshotText t.epochMs ((c.reaped kept).snapshotItems ord t.now))

/-- What holds from the call of the destructor on, which was made in `s₀`. -/
structure Closing (s₀ s : Process M) : Prop where
  called : s.destructor ≠ .running
  stop : s.daemon.aof.stop = true
  /-- The lines are those that had been enqueued before. -/
  inOrder : ∀ file lines added, AofWorker.InOrder file lines added s₀.daemon.aof →
    ∃ added', AofWorker.InOrder file lines added' s.daemon.aof
  drained : s.daemon.aof.Leaving → s.daemon.aof.queue = []
  truncated : s₀.daemon.aof.truncated <+: s.daemon.aof.truncated
  uncut : s₀.daemon.aof.Uncut → s.daemon.aof.Uncut
  snapshot : ∃ later, s.reaped = s₀.reaped ++ later ∧
    s.daemon.cache = s₀.daemon.cache.reaped later ∧ LastSnapshot s₀.daemon.cache later s
  joinedAof : s.destructor.toGo < 4 → s.daemon.aof.pc = .exited
  joinedSnapshot : s.destructor.toGo < 3 → s.loop = .exited
  stopReaper : s.destructor.toGo < 2 → s.stopReaper = true

variable {s₀ : Process M}

/-- The thread of the append-only file makes a step. -/
theorem Closing.aof (C : Closing s₀ s) (hpc : s.daemon.aof.pc ≠ .exited) (seesStop : Bool)
    (passed : ℕ) :
    Closing s₀ { s with daemon := { s.daemon with aof := s.daemon.aof.work seesStop passed } } := by
  refine { C with
    stop := (AofWorker.stop_work _ _ _).trans C.stop
    inOrder := ?_
    drained := ?_
    truncated := C.truncated.trans (AofWorker.truncated_work _ _ _)
    uncut := fun U => (C.uncut U).work seesStop passed
    joinedAof := fun hjoined => absurd (C.joinedAof hjoined) hpc }
  · intro file lines added I
    obtain ⟨added', I'⟩ := C.inOrder file lines added I
    exact I'.work seesStop passed
  · intro hleaving
    rcases AofWorker.leaving_work hleaving with ⟨hbefore, hqueue⟩ | ⟨-, hqueue⟩
    · exact hqueue.trans (C.drained hbefore)
    · exact hqueue

/-- The snapshot thread makes a step of `write_snapshot_file`. -/
theorem Closing.dump (C : Closing s₀ s) (hs₀ : Daemon.Attained capacity s₀.daemon.cache) {last : Bool}
    (hloop : s.loop = .writing last) (t : Instant) (ord : HashOrder Bytes Bytes) :
    Closing s₀
      { s with daemon := s.daemon.dumpStep t ord, loop := afterDump last s.daemon.dump } := by
  have hcache' := Daemon.dumpStep_cache t ord s.daemon
  have haof := Daemon.dumpStep_aof t ord s.daemon
  obtain ⟨later, hreaped, hcache, hlast⟩ := C.snapshot
  refine ⟨C.called, ?_, ?_, ?_, ?_, ?_, ⟨later, hreaped, hcache'.trans hcache, ?_⟩, ?_, ?_,
    C.stopReaper⟩
  · exact haof ▸ C.stop
  · exact haof ▸ C.inOrder
  · exact haof ▸ C.drained
  · exact haof ▸ C.truncated
  · exact haof ▸ C.uncut
  · simp only [LastSnapshot, hloop] at hlast
    rcases afterDump_cases last t ord s.daemon with ⟨text, hd, hafter, hidle, hfile⟩ | ⟨-, hafter⟩
    · cases last with
      | false => simpa [LastSnapshot, hafter] using hidle
      | true =>
          rw [hd] at hlast
          obtain ⟨kept, ord', t', hkept, rfl⟩ := hlast
          simp only [LastSnapshot, hafter, if_true]
          exact ⟨kept, ord', t', hkept, hfile⟩
    · cases last with
      | false => simp [LastSnapshot, hafter]
      | true =>
          simp only [LastSnapshot, hafter]
          rw [hcache']
          exact Collects.dumpStep hlast hs₀ hcache t ord
  · exact haof ▸ C.joinedAof
  · intro hjoined
    simp [C.joinedSnapshot hjoined] at hloop

/-- The reaper cleans up a shard. -/
theorem Closing.reap (C : Closing s₀ s) (now : TimePoint) (i : Fin M.params.numShards)
    (pc : ReaperPc M) :
    Closing s₀
      { s with
        daemon := { s.daemon with cache := s.daemon.cache.cleanupShard now i }
        reaper := pc
        reaped := s.reaped ++ [(now, i)] } := by
  obtain ⟨later, hreaped, hcache, hlast⟩ := C.snapshot
  refine { C with snapshot := ⟨later ++ [(now, i)], by simp [hreaped], ?_, ?_⟩ }
  · rw [ShardedCache.reaped_snoc]
    exact congrArg (ShardedCache.cleanupShard now i) hcache
  · unfold LastSnapshot at hlast ⊢
    cases hloop : s.loop with
    | waiting => simpa only [hloop] using hlast
    | writing last =>
        cases last with
        | false => trivial
        | true =>
            simp only [hloop] at hlast ⊢
            exact hlast.reap now i
    | exited =>
        simp only [hloop] at hlast ⊢
        obtain ⟨kept, ord, t, hkept, hfile⟩ := hlast
        exact ⟨kept, ord, t, hkept.trans (List.sublist_append_left _ _), hfile⟩

theorem Closing.step (C : Closing s₀ s) (hs₀ : Daemon.Attained capacity s₀.daemon.cache)
    {a : ProcessAction M} (h : Step s a s') : Closing s₀ s' := by
  cases move_of_step h with
  | write client w now hs | enqueue client w hs | get key now hs | requestAofRewrite hs
  | destroy hs => exact absurd hs C.called
  | propagate => exact { C with }
  | aof passed hpc => exact C.aof hpc (s.seen .aof) passed
  | wake t ord hloop =>
      obtain ⟨later, hreaped, hcache, hidle⟩ := C.snapshot
      simp only [LastSnapshot, hloop] at hidle
      have hlast : LastSnapshot s₀.daemon.cache later { s with loop := .writing (s.seen .snapshot) } := by
        cases hseen : s.seen .snapshot with
        | false => trivial
        | true =>
            simp only [LastSnapshot, hidle]
            trivial
      exact { C with
        snapshot := ⟨later, hreaped, hcache, hlast⟩
        joinedSnapshot := fun hjoined => by simp [C.joinedSnapshot hjoined] at hloop }
  | dump t ord last hloop => exact C.dump hs₀ hloop t ord
  | test | sample | round => exact { C with }
  | cleanup now now' i rest => exact C.reap now i (.cleanup now rest)
  | joinAof hs hpc =>
      exact { C with
        called := by simp
        joinedAof := fun _ => hpc
        joinedSnapshot := by simp [DestructorPc.toGo]
        stopReaper := by simp [DestructorPc.toGo] }
  | joinSnapshot hs hloop =>
      exact { C with
        called := by simp
        joinedAof := fun _ => C.joinedAof (by simp [hs, DestructorPc.toGo])
        joinedSnapshot := fun _ => hloop
        stopReaper := by simp [DestructorPc.toGo] }
  | stopReaper hs =>
      exact { C with
        called := by simp
        joinedAof := fun _ => C.joinedAof (by simp [hs, DestructorPc.toGo])
        joinedSnapshot := fun _ => C.joinedSnapshot (by simp [hs, DestructorPc.toGo])
        stopReaper := fun _ => rfl }
  | joinReaper hs =>
      exact { C with
        called := by simp
        joinedAof := fun _ => C.joinedAof (by simp [hs, DestructorPc.toGo])
        joinedSnapshot := fun _ => C.joinedSnapshot (by simp [hs, DestructorPc.toGo])
        stopReaper := fun _ => C.stopReaper (by simp [hs, DestructorPc.toGo]) }
  | other => exact C

end Process
end MiniRedis
