import MiniRedis.Persistence.Daemon
import MiniRedis.Persistence.SnapshotAndLog

/-!
# What the snapshot of a running process shows

The snapshot thread visits one shard after the other while the clients go on writing. As long as
nothing is evicted, its lines about the keys of a shard put what the shard held when it was visited,
which is what the writes stand for that had taken effect by then. So what a recovery finds under a key
that the append-only file does not mention is known from the number of these writes.
-/
namespace MiniRedis
variable {M : Platform}

/-- The lines about the keys of a shard put what some writes stand for there, in some order. -/
def Pictures (i : Fin M.params.numShards) (ws lines : List WriteCommand) : Prop :=
  ∃ es, shardLog M i lines = WriteLog.puts es ∧
    es.Perm (WriteLog.contents (shardLog M i ws)).entries

theorem pictures_nil (i : Fin M.params.numShards) : Pictures i [] [] := ⟨[], rfl, .refl _⟩

/-- A shard is visited that holds what the writes to it stand for. -/
theorem ShardedCache.Rep.pictures {c : ShardedCache M.params}
    {xs : Fin M.params.numShards → RecencyList Bytes (Record Bytes)} (R : c.Rep xs)
    (hlasting : ∀ i k r, (xs i).lookup k = some r → r.deadline = none)
    (ord : HashOrder Bytes Bytes) (now : TimePoint) {i : Fin M.params.numShards}
    {ws : List WriteCommand} (hlive : ∀ k, (xs i).lookup k = WriteLog.standing k (shardLog M i ws)) :
    Pictures i ws (((ord.order (c.shards i).map).filterMap (ShardedCache.snapshotItem now)).map
      SnapshotItem.command) := by
  have hsame : (xs i).entries.Perm (WriteLog.contents (shardLog M i ws)).entries := by
    refine List.lookup_ext (xs i).nodupKeys (AList.nodupKeys _) fun k r => ?_
    have hk : (xs i).lookup k = (WriteLog.contents (shardLog M i ws)).lookup k := by
      rw [hlive, WriteLog.lookup_contents]
    change r ∈ (xs i).lookup k ↔ r ∈ (WriteLog.contents (shardLog M i ws)).lookup k
    rw [hk]
  refine ⟨_, ?_, (R.snapshot_perm ord i).trans hsame⟩
  rw [R.shardLog_items hlasting, if_pos rfl]

namespace Daemon

/-- The writes that had taken effect when the snapshot in place visited a shard. -/
def picture (s : Daemon M) (i : Fin M.params.numShards) : List WriteCommand :=
  s.issued.take (s.shown i)

/-- Those that had when the shard was visited last. -/
def visit (s : Daemon M) (i : Fin M.params.numShards) : List WriteCommand :=
  s.issued.take (s.visited i)

/-- What the snapshot thread holds shows each shard as it was visited. -/
def Drawn (capacity : ℕ) (s : Daemon M) : Prop :=
  match s.dump with
  | .idle => True
  | .collect _ rest items => rest.Nodup ∧ ∀ i, capacityOf M.params capacity i ≠ 0 →
      if i ∈ rest then shardLog M i (items.map SnapshotItem.command) = []
      else Pictures i (s.visit i) (items.map SnapshotItem.command)
  | .remove text | .rename text =>
      ∀ i, capacityOf M.params capacity i ≠ 0 → Pictures i (s.visit i) (readBack text)

/-- The snapshot in place, and the one that is being made, show what was visited. -/
structure Pictured (capacity : ℕ) (s : Daemon M) : Prop where
  visited_le : ∀ i, s.visited i ≤ s.issued.length
  shown_le : ∀ i, s.shown i ≤ s.issued.length
  drawn : s.Drawn capacity
  snapshot : ∀ i, capacityOf M.params capacity i ≠ 0 →
    Pictures i (s.picture i) (readBack (s.snapshot.getD []))

namespace Pictured
variable {capacity : ℕ} {s s' : Daemon M} {ws : List WriteCommand}
  {xs : Fin M.params.numShards → RecencyList Bytes (Record Bytes)}

theorem init (capacity : ℕ) : (Daemon.init M capacity).Pictured capacity where
  visited_le _ := Nat.zero_le _
  shown_le _ := Nat.zero_le _
  drawn := trivial
  snapshot i _ := pictures_nil i

/-- A later write does not change what had taken effect before. -/
theorem update (P : s.Pictured capacity) (w : WriteCommand) (cache : ShardedCache M.params)
    (pending : ℕ → Option WriteCommand) :
    Pictured capacity { s with cache := cache, pending := pending, issued := s.issued ++ [w] } := by
  have hvisit : ∀ i, (s.issued ++ [w]).take (s.visited i) = s.visit i :=
    fun i => List.take_append_of_le_length (P.visited_le i)
  have hpicture : ∀ i, (s.issued ++ [w]).take (s.shown i) = s.picture i :=
    fun i => List.take_append_of_le_length (P.shown_le i)
  have hlonger : s.issued.length ≤ (s.issued ++ [w]).length := by simp
  refine ⟨fun i => (P.visited_le i).trans hlonger, fun i => (P.shown_le i).trans hlonger, ?_, ?_⟩
  · have hdrawn := P.drawn
    unfold Drawn at hdrawn ⊢
    simpa only [visit, hvisit] using hdrawn
  · intro i hcap
    rw [picture, hpicture]
    exact P.snapshot i hcap

/-- The snapshot thread makes a step. -/
theorem dumpStep (P : s.Pictured capacity) (S : Sound capacity s ws xs)
    (hevictions : s.cache.counters.evictions = 0) (t : Instant) (ord : HashOrder Bytes Bytes) :
    (s.dumpStep t ord).Pictured capacity := by
  have hdrawn := P.drawn
  have hdumped := S.dumped
  unfold Drawn at hdrawn
  cases hd : s.dump with
  | idle =>
      simp only [Daemon.dumpStep, hd]
      refine { P with drawn := ⟨List.nodup_finRange _, fun i _ => ?_⟩ }
      rw [if_pos (List.mem_finRange i)]
      rfl
  | collect now rest items =>
      rw [hd] at hdrawn hdumped
      obtain ⟨hnodup, hdrawn⟩ := hdrawn
      cases rest with
      | nil =>
          simp only [Daemon.dumpStep, hd]
          refine { P with drawn := fun i hcap => ?_ }
          rw [readBack_snapshotText fun item hitem => (S.valid _ (hdumped item hitem)).1]
          exact hdrawn i hcap
      | cons j rest =>
          obtain ⟨hj, hnodup⟩ := List.nodup_cons.mp hnodup
          have hlasting : ∀ i k r, (xs i).lookup k = some r → r.deadline = none :=
            fun i k r hr => (S.stored i k r hr).2
          simp only [Daemon.dumpStep, hd]
          refine { P with visited_le := fun i => ?_, drawn := ⟨hnodup, fun i hcap => ?_⟩ }
          · by_cases hi : i = j
            · subst hi
              simp
            · simpa [hi] using P.visited_le i
          have hvisited := hdrawn i hcap
          by_cases hi : i = j
          · subst hi
            rw [if_pos List.mem_cons_self] at hvisited
            have hpictures := S.rep.pictures hlasting ord now (S.live hevictions i hcap).lookup
            obtain ⟨es, hes, hperm⟩ := hpictures
            rw [if_neg hj]
            refine ⟨es, ?_, ?_⟩
            · rw [List.map_append, shardLog_append, hvisited, List.nil_append, hes]
            · simpa [visit] using hperm
          · have hnone := S.rep.shardLog_items hlasting ord now i j
            rw [if_neg fun heq => hi heq.symm] at hnone
            simp only [Pictures, List.map_append, shardLog_append, hnone, List.append_nil, visit,
              Function.update_of_ne hi]
            simpa only [List.mem_cons, hi, false_or, Pictures, visit] using hvisited
  | remove text =>
      rw [hd] at hdrawn
      simp only [Daemon.dumpStep, hd]
      refine { P with shown_le := fun _ => Nat.zero_le _, drawn := hdrawn, snapshot := fun i _ => ?_ }
      exact pictures_nil i
  | rename text =>
      rw [hd] at hdrawn
      simp only [Daemon.dumpStep, hd]
      exact { P with shown_le := P.visited_le, drawn := trivial, snapshot := hdrawn }

theorem step (P : s.Pictured capacity) (S : Sound capacity s ws xs) {a : DaemonAction M}
    (hevictions : s.cache.counters.evictions = 0) (h : Step s a s') : s'.Pictured capacity := by
  cases a with
  | update client line now =>
      obtain ⟨w, -, -, -, rfl⟩ := update_cases h
      exact P.update w _ _
  | enqueue client =>
      obtain ⟨w, -, rfl⟩ := Option.map_eq_some_iff.mp h
      exact { P with }
  | requestStop | requestAofRewrite | work =>
      cases h
      exact { P with }
  | dump t ord =>
      cases h
      exact P.dumpStep S hevictions t ord

end Pictured

/-- A step takes no eviction back. -/
theorem evictions_le_step {capacity : ℕ} {s s' : Daemon M} {ws : List WriteCommand}
    {xs : Fin M.params.numShards → RecencyList Bytes (Record Bytes)} (S : Sound capacity s ws xs)
    {a : DaemonAction M} (h : Step s a s') :
    s.cache.counters.evictions ≤ s'.cache.counters.evictions := by
  cases a with
  | update client line now =>
      obtain ⟨w, -, -, -, rfl⟩ := update_cases h
      exact S.rep.evictions_le_applyWrite now w
  | enqueue client =>
      obtain ⟨w, -, rfl⟩ := Option.map_eq_some_iff.mp h
      exact le_rfl
  | requestStop | requestAofRewrite | work =>
      cases h
      exact le_rfl
  | dump t ord =>
      cases h
      obtain ⟨dump, snapshot, visited, shown, heq⟩ := dumpStep_frame t ord s
      rw [heq]

/-- What is known of a process that has not evicted anything. -/
theorem pictured_of_run {capacity : ℕ} {acts : List (DaemonAction M)} {s : Daemon M}
    (hrun : Transition.Run Step (init M capacity) acts s) :
    s.cache.counters.evictions = 0 → s.Pictured capacity := by
  refine hrun.invariant_under (I := fun s => ∃ ws xs, Sound capacity s ws xs)
    (P := fun s => s.cache.counters.evictions = 0 → s.Pictured capacity) ?_ ?_
    ⟨[], _, .init capacity⟩ fun _ => .init capacity
  · intro s a t h hs
    exact exists_sound_step hs h
  · rintro s a t h ⟨ws, xs, S⟩ hs hevictions
    have hbefore := Nat.le_zero.mp (hevictions ▸ evictions_le_step S h)
    exact (hs hbefore).step S hbefore h

/-! ## What a recovery finds -/

section Recovery
variable {capacity : ℕ} {s : Daemon M} {ws : List WriteCommand}
  {xs : Fin M.params.numShards → RecencyList Bytes (Record Bytes)} {key value : Bytes}

/-- The lines of the file, replayed over what the snapshot shows of a shard, never stand for more keys
than the shard holds. -/
def Roomy (s : Daemon M) (i : Fin M.params.numShards) : Prop :=
  ∀ l, l <+: shardLog M i (readBack s.aof.file) →
    (WriteLog.replayFree l (WriteLog.contents (shardLog M i (s.picture i)))).card ≤
      capacityOf M.params s.cache.maxKeys i

instance (s : Daemon M) (i : Fin M.params.numShards) : Decidable (s.Roomy i) :=
  decidable_of_iff (∀ l ∈ (shardLog M i (readBack s.aof.file)).inits,
    (WriteLog.replayFree l (WriteLog.contents (shardLog M i (s.picture i)))).card ≤
      capacityOf M.params s.cache.maxKeys i) (by simp only [Roomy, List.mem_inits])

/-- **A key that the file does not mention** is recovered only as the snapshot shows it. -/
theorem Pictured.lastValue_picture (P : s.Pictured s.cache.maxKeys)
    (hcap : capacityOf M.params s.cache.maxKeys (M.home key) ≠ 0)
    (hfree : ∀ w ∈ s.left, w.ttl = none) (hkey : ∀ w ∈ readBack s.aof.file, w.key ≠ key)
    (h : Outlives M s.cache.maxKeys key value s.left) :
    lastValue key (s.picture (M.home key)) = some value := by
  obtain ⟨es, hes, hperm⟩ := P.snapshot (M.home key) hcap
  rw [← map_value_replay_iff hfree, left, recoveryLog, shardLog_append, hes] at h
  obtain ⟨r, hr, rfl⟩ := Option.map_eq_some_iff.mp h
  have hshown := WriteLog.lookup_of_lookup_replay_puts hperm (forall_key_shardLog_iff.mpr hkey) hr
  rw [WriteLog.lookup_contents] at hshown
  rw [← map_value_standing (M := M), hshown]
  rfl

/-- And it is recovered so if the lines of the file leave the shown keys room. -/
theorem Pictured.outlives_iff (P : s.Pictured s.cache.maxKeys) (S : Sound s.cache.maxKeys s ws xs)
    (hevictions : s.cache.counters.evictions = 0)
    (hcap : capacityOf M.params s.cache.maxKeys (M.home key) ≠ 0)
    (hkey : ∀ w ∈ readBack s.aof.file, w.key ≠ key) (hroom : s.Roomy (M.home key)) :
    Outlives M s.cache.maxKeys key value s.left ↔
      lastValue key (s.picture (M.home key)) = some value := by
  obtain ⟨es, hes, hperm⟩ := P.snapshot (M.home key) hcap
  have hcard : (WriteLog.contents (shardLog M (M.home key) (s.picture (M.home key)))).card ≤
      capacityOf M.params s.cache.maxKeys (M.home key) := by
    refine (S.live hevictions _ hcap).fits _ ?_
    conv_rhs => rw [← List.take_append_drop (s.shown (M.home key)) s.issued]
    rw [shardLog_append]
    exact List.prefix_append _ _
  rw [← map_value_replay_iff S.ttl_left, left, recoveryLog, shardLog_append, hes,
    WriteLog.lookup_replay_puts hperm hcard hroom (forall_key_shardLog_iff.mpr hkey),
    WriteLog.lookup_contents, map_value_standing]

end Recovery
end Daemon
end MiniRedis
