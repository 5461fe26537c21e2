import MiniRedis.Persistence.PrefixRecovery

/-!
# Rewrites of the append-only file

`request_aof_rewrite` makes the thread of the append-only file empty it, whatever the snapshot shows
at that time. A line that was flushed is then in no file at all unless the snapshot in place visited
its shard in time, and removing that snapshot, or putting another one in its place, can lose it later.

A rewrite is safe if, when the file is cut, the snapshot in place shows every key with a flushed line as
the last of these lines leaves it, and if no later snapshot falls behind that (`Safe`).
-/
namespace MiniRedis
variable {M : Platform}

/-- A step of the thread only adds to the file, unless it cuts it. -/
theorem AofWorker.exists_file_work {s : AofWorker} (h : s.pc ≠ .truncate) (seesStop : Bool)
    (passed : ℕ) : (s.work seesStop passed).truncated = s.truncated ∧
      ∃ part, (s.work seesStop passed).file = s.file ++ part := by
  cases hpc : s.pc with
  | write last rest =>
      cases rest <;> simp only [work, hpc] <;> exact ⟨trivial, _, rfl⟩
  | exchange =>
      simp only [work, hpc]
      split <;> exact ⟨rfl, [], (List.append_nil _).symm⟩
  | truncate => exact absurd hpc h
  | test | drain | exited =>
      simp only [work, hpc]
      exact ⟨trivial, [], (List.append_nil _).symm⟩

namespace Daemon

/-- A restart reflects all commands whose lines were flushed: under the key of each it reads what
the last of them left there. -/
def Durable (s : Daemon M) : Prop :=
  ∀ clock key now, (∃ w ∈ s.flushed, w.key = key) →
    ((s.recover clock).get key now).1 = lastValue key s.flushed

/-- The commands whose lines rewrites have cut off. -/
def cutOff (s : Daemon M) : List WriteCommand :=
  (Splitting.terminated newline s.aof.truncated).filterMap replayLine

/-- Those whose lines are in the file to the end. -/
def kept (s : Daemon M) : List WriteCommand :=
  (Splitting.terminated newline s.aof.file).filterMap replayLine

/-- Where all lines about a key have been cut off, some writes to each shard leave the key as the last of
these lines does. -/
def Backed (s : Daemon M) (ws : Fin M.params.numShards → List WriteCommand) : Prop :=
  ∀ w ∈ s.cutOff, (∀ v ∈ s.kept, v.key ≠ w.key) →
    lastValue w.key (ws (M.home w.key)) = lastValue w.key s.cutOff

instance (s : Daemon M) : DecidablePred s.Backed := fun ws =>
  inferInstanceAs (Decidable (∀ w ∈ s.cutOff, (∀ v ∈ s.kept, v.key ≠ w.key) →
    lastValue w.key (ws (M.home w.key)) = lastValue w.key s.cutOff))

/-- The snapshot thread takes no snapshot away that backs what was cut off, and puts one in place that
does. -/
def SafeDump (s : Daemon M) : DumpPc M → Prop
  | .remove _ => s.Backed fun _ => []
  | .rename _ => s.Backed s.visit
  | .idle | .collect .. => True

instance (s : Daemon M) : DecidablePred s.SafeDump
  | .remove _ => inferInstanceAs (Decidable (s.Backed fun _ => []))
  | .rename _ => inferInstanceAs (Decidable (s.Backed s.visit))
  | .idle | .collect .. => isTrue trivial

/-- What a step has to respect so that nothing is lost by it. When the file is cut, the snapshot in place
shows each key with a flushed line as the last of these lines leaves it. -/
def Safe (s : Daemon M) : DaemonAction M → Prop
  | .work .. => s.aof.pc = .truncate → ∀ w ∈ s.flushed,
      lastValue w.key (s.picture (M.home w.key)) = lastValue w.key s.flushed
  | .dump .. => s.SafeDump s.dump
  | .update .. | .enqueue _ | .requestStop | .requestAofRewrite => True

instance (s : Daemon M) : DecidablePred s.Safe
  | .work .. => inferInstanceAs (Decidable (s.aof.pc = .truncate → ∀ w ∈ s.flushed,
      lastValue w.key (s.picture (M.home w.key)) = lastValue w.key s.flushed))
  | .dump .. => inferInstanceAs (Decidable (s.SafeDump s.dump))
  | .update .. | .enqueue _ | .requestStop | .requestAofRewrite => isTrue trivial

/-- A step that respects it. -/
def SafeStep (s : Daemon M) (a : DaemonAction M) (s' : Daemon M) : Prop := Step s a s' ∧ s.Safe a

/-- A step that is taken only if it is safe. -/
def stepIfSafe (a : DaemonAction M) (s : Daemon M) : Option (Daemon M) :=
  if s.Safe a then step a s else none

theorem safeStep_of_eq {s s' : Daemon M} {a : DaemonAction M} (h : stepIfSafe a s = some s') :
    SafeStep s a s' := by
  obtain ⟨hsafe, hstep⟩ := Option.ite_none_right_eq_some.mp h
  exact ⟨hstep, hsafe⟩

/-- The file can be replayed for what it says. -/
structure Readable (s : Daemon M) : Prop where
  /-- It does not end with a part of a line that is read as a command. -/
  whole : readBack s.aof.file = s.kept
  /-- The shards of its commands have any capacity, and its lines about them fit. -/
  fits : ∀ w ∈ s.flushed, capacityOf M.params s.cache.maxKeys (M.home w.key) ≠ 0 ∧
    ∀ l, l <+: shardLog M (M.home w.key) (readBack s.aof.file) →
      (WriteLog.contents l).card ≤ capacityOf M.params s.cache.maxKeys (M.home w.key)
  /-- They leave room to the keys that only the snapshot has. -/
  roomy : ∀ w ∈ s.flushed, (∀ v ∈ s.kept, v.key ≠ w.key) →
    lastValue w.key (s.picture (M.home w.key)) ≠ none → s.Roomy (M.home w.key)

instance (s : Daemon M) : Decidable s.Readable :=
  decidable_of_iff (readBack s.aof.file = s.kept ∧
      (∀ w ∈ s.flushed, capacityOf M.params s.cache.maxKeys (M.home w.key) ≠ 0 ∧
        ∀ l ∈ (shardLog M (M.home w.key) (readBack s.aof.file)).inits,
          (WriteLog.contents l).card ≤ capacityOf M.params s.cache.maxKeys (M.home w.key)) ∧
      ∀ w ∈ s.flushed, (∀ v ∈ s.kept, v.key ≠ w.key) →
        lastValue w.key (s.picture (M.home w.key)) ≠ none → s.Roomy (M.home w.key)) <| by
    simp only [List.mem_inits]
    exact ⟨fun h => ⟨h.1, h.2.1, h.2.2⟩, fun h => ⟨h.whole, h.fits, h.roomy⟩⟩

/-! ## What is flushed is in the file or was cut off -/

section Files
variable {capacity : ℕ} {s s' : Daemon M} {ws : List WriteCommand}
  {xs : Fin M.params.numShards → RecencyList Bytes (Record Bytes)}

theorem Sound.flushed_eq (S : Sound capacity s ws xs) : s.flushed = s.cutOff ++ s.kept := by
  obtain ⟨cut, inFile, rest, hws, hcut, -⟩ := S.exists_texts
  have hstorable : ∀ w ∈ cut, w.Storable :=
    fun w hw => (S.valid w (S.logged w (by simp [hws, hw]))).1
  have hwhole := (cut_aofText hstorable).2
  rw [← hcut] at hwhole
  rw [flushed, Splitting.terminated_append, hwhole, List.nil_append, List.filterMap_append, cutOff,
    kept]

/-- When the file is about to be cut, the stream has passed on everything. -/
theorem Sound.buffer_of_truncate (S : Sound capacity s ws xs) (h : s.aof.pc = .truncate) :
    s.aof.buffer = [] := by
  obtain ⟨added, I⟩ := S.aof
  exact I.passed (by simp [h])

/-- **What a restart reflects** of a file that can be replayed: all that was flushed, if the snapshot in
place backs what was cut off. -/
theorem durable_iff_backed (S : Sound s.cache.maxKeys s ws xs) (P : s.Pictured s.cache.maxKeys)
    (hevictions : s.cache.counters.evictions = 0) (h : s.Readable) :
    s.Durable ↔ s.Backed s.picture := by
  have hflushed := S.flushed_eq
  have hread : ∀ clock key now, (∃ w ∈ s.flushed, w.key = key) →
      (((s.recover clock).get key now).1 = lastValue key s.flushed ↔
        ((∀ v ∈ s.kept, v.key ≠ key) →
          lastValue key (s.picture (M.home key)) = lastValue key s.cutOff)) := by
    rintro clock key now ⟨w, hw, rfl⟩
    obtain ⟨hcap, hfits⟩ := h.fits w hw
    by_cases hkey : ∃ v ∈ s.kept, v.key = w.key
    · refine iff_of_true ?_ ?_
      · apply Option.ext
        intro value
        rw [get_recover_iff S.ttl_left, hflushed, lastValue_append_of_mentioned hkey, left,
          recoveryLog, outlives_append_iff S.ttl_left (h.whole ▸ hkey),
          outlives_iff_of_fits (fun v hv => S.ttl_left v (List.mem_append_right _ hv)) hfits, h.whole]
      · obtain ⟨v, hv, hvw⟩ := hkey
        exact fun hnone => absurd hvw (hnone v hv)
    · push Not at hkey
      have hshown : ((s.recover clock).get w.key now).1 =
          lastValue w.key (s.picture (M.home w.key)) := by
        apply Option.ext
        intro value
        rw [get_recover_iff S.ttl_left]
        refine ⟨P.lastValue_picture hcap S.ttl_left (h.whole ▸ hkey), fun hvalue => ?_⟩
        have hroom := h.roomy w hw hkey (by simp [hvalue])
        exact (P.outlives_iff S hevictions hcap (h.whole ▸ hkey) hroom).mpr hvalue
      rw [hshown, hflushed, lastValue_append_of_unmentioned hkey]
      exact ⟨fun heq _ => heq, fun heq => heq hkey⟩
  constructor
  · intro hdurable w hw hkey
    have hmem : ∃ v ∈ s.flushed, v.key = w.key := ⟨w, by simp [hflushed, hw], rfl⟩
    exact (hread ⟨fun _ => 0, fun _ => 0⟩ w.key 0 hmem).mp (hdurable _ _ _ hmem) hkey
  · rintro hbacked clock key now ⟨w, hw, rfl⟩
    refine (hread clock w.key now ⟨w, hw, rfl⟩).mpr fun hkey => ?_
    rw [hflushed, List.mem_append] at hw
    rcases hw with hw | hw
    · exact hbacked w hw hkey
    · exact absurd rfl (hkey w hw)

/-- A step that cuts nothing off and leaves the snapshot in place. -/
theorem Backed.mono (h : s.Backed s.picture) (hcut : s'.aof.truncated = s.aof.truncated)
    {part : Bytes} (hfile : s'.aof.file = s.aof.file ++ part) (hpicture : s'.picture = s.picture) :
    s'.Backed s'.picture := by
  have hkept : s'.kept = s.kept ++ (Splitting.terminated newline
      (Splitting.unterminated newline s.aof.file ++ part)).filterMap replayLine := by
    rw [kept, hfile, Splitting.terminated_append, List.filterMap_append, kept]
  have hcutOff : s'.cutOff = s.cutOff := by rw [cutOff, hcut, cutOff]
  intro w hw hkey
  rw [hcutOff] at hw ⊢
  rw [hpicture]
  exact h w hw fun v hv => hkey v (by simp [hkept, hv])

/-- **A step keeps the snapshot sufficient** if and only if it is safe. -/
theorem backed_step_iff (S : Sound capacity s ws xs) (P : s.Pictured capacity)
    {a : DaemonAction M} (hstep : Step s a s') (h : s.Backed s.picture) :
    s'.Backed s'.picture ↔ s.Safe a := by
  cases a with
  | update client line now =>
      obtain ⟨w, -, -, -, rfl⟩ := update_cases hstep
      refine iff_of_true (h.mono rfl (List.append_nil _).symm ?_) trivial
      exact funext fun i => List.take_append_of_le_length (P.shown_le i)
  | enqueue client =>
      obtain ⟨w, -, rfl⟩ := Option.map_eq_some_iff.mp hstep
      exact iff_of_true (h.mono rfl (List.append_nil _).symm rfl) trivial
  | requestStop | requestAofRewrite =>
      cases hstep
      exact iff_of_true (h.mono rfl (List.append_nil _).symm rfl) trivial
  | work seesStop passed =>
      cases hstep
      by_cases hpc : s.aof.pc = .truncate
      · have hbuffer := S.buffer_of_truncate hpc
        have hempty : Splitting.terminated newline [] = [] := rfl
        simp only [Safe, hpc, true_imp_iff, Backed, cutOff, kept, AofWorker.work, hbuffer,
          List.append_nil, hempty, List.filterMap_nil, List.not_mem_nil, false_imp_iff, implies_true]
        rfl
      · obtain ⟨hcut, part, hfile⟩ := AofWorker.exists_file_work hpc seesStop passed
        exact iff_of_true (h.mono hcut hfile rfl) fun htruncate => absurd htruncate hpc
  | dump t ord =>
      cases hstep
      cases hd : s.dump with
      | idle =>
          simp only [Safe, SafeDump, dumpStep, hd, iff_true]
          exact h
      | collect now rest items =>
          simp only [Safe, SafeDump, hd, iff_true]
          cases rest <;> simp only [dumpStep, hd] <;> exact h
      | remove text =>
          simp only [Safe, SafeDump, dumpStep, hd]
          rfl
      | rename text =>
          simp only [Safe, SafeDump, dumpStep, hd]
          rfl

end Files

/-! ## Runs -/

/-- What is known of a process that has not evicted anything. -/
structure Followed (capacity : ℕ) (s : Daemon M) : Prop where
  sound : ∃ ws xs, Sound capacity s ws xs
  pictured : s.Pictured capacity

theorem Followed.init (capacity : ℕ) : (Daemon.init M capacity).Followed capacity :=
  ⟨⟨[], _, .init capacity⟩, .init capacity⟩

section Runs
variable {capacity : ℕ} {s s' : Daemon M}

theorem Followed.step (h : s.Followed capacity) (hevictions : s.cache.counters.evictions = 0)
    {a : DaemonAction M} (hstep : Step s a s') : s'.Followed capacity := by
  refine ⟨exists_sound_step h.sound hstep, ?_⟩
  obtain ⟨⟨ws, xs, S⟩, P⟩ := h
  exact P.step S hevictions hstep

theorem Followed.durable_iff (h : s.Followed capacity) (hevictions : s.cache.counters.evictions = 0)
    (hread : s.Readable) : s.Durable ↔ s.Backed s.picture := by
  obtain ⟨⟨ws, xs, S⟩, P⟩ := h
  have hmax := S.maxKeys
  subst hmax
  exact durable_iff_backed S P hevictions hread

theorem Followed.evictions_le (h : s.Followed capacity) {acts : List (DaemonAction M)}
    (hrun : Transition.Run Step s acts s') :
    s.cache.counters.evictions ≤ s'.cache.counters.evictions := by
  refine hrun.invariant_under (I := fun t => ∃ ws xs, Sound capacity t ws xs)
    (P := fun t => s.cache.counters.evictions ≤ t.cache.counters.evictions) ?_ ?_ h.sound le_rfl
  · intro t a u hstep ht
    exact exists_sound_step ht hstep
  · rintro t a u hstep ⟨ws, xs, S⟩ hle
    exact hle.trans (evictions_le_step S hstep)

/-- **A run in which the file can be replayed at any time loses no flushed command at any time** if and
only if each of its steps is safe. -/
theorem durable_run_iff {acts : List (DaemonAction M)}
    (h : Transition.exec step acts (init M capacity) = some s)
    (hevictions : s.cache.counters.evictions = 0)
    (hread : ∀ u ∈ Transition.visited step acts (init M capacity), u.Readable) :
    (∀ u ∈ Transition.visited step acts (init M capacity), u.Durable) ↔
      Transition.Run SafeStep (init M capacity) acts s := by
  have hfollowed : (init M capacity).Followed capacity := .init capacity
  have hbacked : (init M capacity).Backed (init M capacity).picture := fun w hw => by cases hw
  generalize init M capacity = x at h hread hfollowed hbacked ⊢
  -- the induction is on the run, and what has been cut off by then is backed
  induction acts generalizing x with
  | nil =>
      cases h
      have hdurable := (hfollowed.durable_iff hevictions (hread s (by simp [Transition.visited]))).mpr
        hbacked
      exact iff_of_true (by simpa [Transition.visited] using hdurable) (.nil s)
  | cons a acts ih =>
      have hzero := Nat.le_zero.mp (hevictions ▸ hfollowed.evictions_le (Transition.run_of_exec h))
      obtain ⟨y, hy, hrest⟩ := Option.bind_eq_some_iff.mp h
      simp only [Transition.visited, hy, List.forall_mem_cons] at hread ⊢
      have hdurable := (hfollowed.durable_iff hzero hread.1).mpr hbacked
      have hnext := hfollowed.step hzero hy
      have hzero' := Nat.le_zero.mp (hevictions ▸ hnext.evictions_le (Transition.run_of_exec hrest))
      have hiff : y.Backed y.picture ↔ x.Safe a := by
        obtain ⟨⟨ws, xs, S⟩, P⟩ := hfollowed
        exact backed_step_iff S P hy hbacked
      constructor
      · rintro ⟨-, hlater⟩
        have hbacked' := (hnext.durable_iff hzero' (hread.2 y (Transition.mem_visited acts y))).mp
          (hlater y (Transition.mem_visited acts y))
        exact .cons ⟨hy, hiff.mp hbacked'⟩ ((ih y hrest hread.2 hnext hbacked').mp hlater)
      · intro hrun
        cases hrun with
        | cons hstep hrun =>
            obtain ⟨hy', hsafe⟩ := hstep
            cases hy.symm.trans hy'
            exact ⟨hdurable, (ih y hrest hread.2 hnext (hiff.mpr hsafe)).mpr hrun⟩

end Runs

/-- A client sets a key and the line is flushed, the snapshot thread writes a snapshot, and then the
file is cut. -/
def rewriteAfterSnapshot : List (DaemonAction Platform.oneShard) :=
  flushedSet ++ dumping ++ .requestAofRewrite :: working 5

/-- The snapshot has what is cut off. -/
theorem durable_run_iff_rewriteAfterSnapshot :
    (∃ s, after rewriteAfterSnapshot = some s ∧ s.flushed ≠ [] ∧ s.aof.file = []) ∧
      ∀ u ∈ Transition.visited step rewriteAfterSnapshot (init Platform.oneShard 128), u.Durable := by
  have hsome : (after rewriteAfterSnapshot).isSome = true := by decide +kernel
  have hsafe : (Transition.exec stepIfSafe rewriteAfterSnapshot
      (init Platform.oneShard 128)).isSome = true := by decide +kernel
  obtain ⟨s, hs⟩ := Option.isSome_iff_exists.mp hsome
  obtain ⟨t, ht⟩ := Option.isSome_iff_exists.mp hsafe
  have hrun := (Transition.run_of_exec ht).mono fun _ _ _ h => safeStep_of_eq h
  have hevictions : s.cache.counters.evictions = 0 :=
    of_after (f := fun s => s.cache.counters.evictions) hs (by decide +kernel)
  have hflushed : s.flushed = [.set (ascii "a") (ascii "1") none] :=
    of_after (f := flushed) hs (by decide +kernel)
  have hcut : s.aof.file = [] := of_after (f := fun s => s.aof.file) hs (by decide +kernel)
  have hread : (Transition.visited step rewriteAfterSnapshot (init Platform.oneShard 128)).all
      (fun u => decide u.Readable) = true := by decide +kernel
  obtain rfl : t = s :=
    Option.some.inj ((Transition.exec_of_run (hrun.mono fun _ _ _ h => h.1)).symm.trans hs)
  exact ⟨⟨t, hs, by simp [hflushed], hcut⟩, (durable_run_iff hs hevictions fun u hu =>
    of_decide_eq_true (List.all_eq_true.mp hread u hu)).mpr hrun⟩

/-- A client sets a key, the line is flushed, and a rewrite cuts it off before there is a
snapshot. -/
theorem rewrite_loses_write :
    ¬ ∀ (capacity : ℕ) (acts : List (DaemonAction Platform.oneShard)) (s : Daemon Platform.oneShard),
      Transition.Run Step (init Platform.oneShard capacity) acts s →
      s.cache.counters.evictions = 0 → s.Durable := by
  intro h
  let acts := flushedSet ++ .requestAofRewrite :: working 2
  have hsome : (after acts).isSome = true := by decide +kernel
  obtain ⟨s, hs⟩ := Option.isSome_iff_exists.mp hsome
  have hevictions : s.cache.counters.evictions = 0 :=
    of_after (f := fun s => s.cache.counters.evictions) hs (by decide +kernel)
  have hflushed : s.flushed = [.set (ascii "a") (ascii "1") none] :=
    of_after (f := flushed) hs (by decide +kernel)
  have hlost : ((s.recover ⟨fun _ => 0, fun _ => 0⟩).get (ascii "a") 0).1 = none :=
    of_after (f := fun s => ((s.recover ⟨fun _ => 0, fun _ => 0⟩).get (ascii "a") 0).1) hs
      (by decide +kernel)
  have hread := h 128 acts s (Transition.run_of_exec hs) hevictions ⟨fun _ => 0, fun _ => 0⟩
    (ascii "a") 0 ⟨_, by rw [hflushed]; exact List.mem_singleton_self _, rfl⟩
  rw [hlost, hflushed] at hread
  cases hread

end Daemon
end MiniRedis
