import MiniRedis.Lib.Transition
import MiniRedis.Persistence.Recovery

/-!
# Lifetimes across restarts

Deadlines are readings of the steady clock, which mean nothing after a restart. The files keep ttls
instead: the log the original one of each `SET`, the snapshot what was left of it when it was
written. A recovery counts either from the instant of the replay, so a key can outlive its ttl.

Here the server runs along a wall clock, with a note of the last write to each key. No lifetime is
extended as long as every recovery replays, as the last command about a key, none that stores its
value beyond the end of its time.
-/
namespace MiniRedis
variable {M : Platform}

/-- A server and its surroundings. Times are in nanoseconds. -/
structure World (M : Platform) where
  server : Server M
  /-- The time on the wall clock. -/
  wall : ℤ
  /-- The wall-clock time at which the steady clock showed zero. -/
  boot : ℤ
  /-- The last write to each key, and the wall-clock time at which it took effect. -/
  lastWrite : Bytes → Option (ℤ × WriteCommand)

/-- A recovery: the steady clock it finds, how long it takes, and after what time each command of
either file is replayed. -/
structure RestartTimes where
  boot : ℤ
  took : ℕ
  snapshotLag : ℕ → ℕ
  aofLag : ℕ → ℕ

inductive WorldAction (M : Platform)
  /-- The server does something at the current time. -/
  | serve (a : ServerAction M)
  /-- Time passes. -/
  | tick (d : ℕ)
  /-- The process is replaced by a new one that recovers from the files. What is still in the queue
  is lost. -/
  | restart (r : RestartTimes)

namespace World

/-- The reading of the steady clock. -/
def now (w : World M) : TimePoint := w.wall - w.boot

def instant (w : World M) : Instant := ⟨w.now, w.wall.tdiv nsPerMs⟩

/-- The first start, from empty files. -/
def init (M : Platform) (capacity : ℕ) (wall boot : ℤ) : World M where
  server := .init M capacity
  wall := wall
  boot := boot
  lastWrite := fun _ => none

/-- Note the write that an action is. -/
def noteWrite (a : ServerAction M) (w : World M) : Bytes → Option (ℤ × WriteCommand) :=
  match a with
  | .command line =>
      match (parseTcpCommand line).write? with
      | some c => Function.update w.lastWrite c.key (some (w.wall, c))
      | none => w.lastWrite
  | _ => w.lastWrite

/-- The wall-clock time of a replay after a lag, within the time the recovery takes. -/
def replayTime (w : World M) (r : RestartTimes) (lag : ℕ) : ℤ := w.wall + (min lag r.took : ℕ)

/-- The commands that a recovery replays, each with its wall-clock time. -/
def replayed (w : World M) (r : RestartTimes) : List (ℤ × WriteCommand) :=
  timed (fun i => w.replayTime r (r.snapshotLag i)) (readBack w.server.snapshot) ++
    timed (fun i => w.replayTime r (r.aofLag i)) (readBack w.server.aof)

/-- The readings of the new steady clock during the recovery. -/
def recoveryClock (w : World M) (r : RestartTimes) : RecoveryClock where
  snapshot := fun i => w.replayTime r (r.snapshotLag i) - r.boot
  aof := fun i => w.replayTime r (r.aofLag i) - r.boot

/-- The steady clock does not show negative times. -/
def step : WorldAction M → World M → Option (World M)
  | .serve a, w => some { w with server := w.server.step w.instant a, lastWrite := w.noteWrite a }
  | .tick d, w => some { w with wall := w.wall + d }
  | .restart r, w =>
      if r.boot ≤ w.wall then
        some { w with
          server := w.server.restart (w.recoveryClock r)
          wall := w.wall + r.took
          boot := r.boot }
      else none

/-- `step` as a relation. -/
def Step (w : World M) (a : WorldAction M) (w' : World M) : Prop := step a w = some w'

/-- A key that was last written by a `SET` does not have its value once its ttl is over. -/
def LifetimesKept (w : World M) : Prop :=
  ∀ key t value d, w.lastWrite key = some (t, .set key value (some d)) →
    t + d * nsPerMs ≤ w.wall → (w.server.cache.get key w.now).1 ≠ some value

/-- The last of the commands about a key. -/
def lastMention (key : Bytes) (ws : List (ℤ × WriteCommand)) : Option (ℤ × WriteCommand) :=
  (ws.filter fun x => x.2.key = key).getLast?

/-- The last command that the recovery replays about a key does not store the value of its last
write beyond the end of its time. -/
def RecoversInTime (w : World M) (r : RestartTimes) : Prop :=
  ∀ key t value d, w.lastWrite key = some (t, .set key value (some d)) →
    ∀ t' ttl, lastMention key (w.replayed r) = some (t', .set key value ttl) →
      ∃ d', ttl = some d' ∧ t' + d' * nsPerMs ≤ t + d * nsPerMs

/-- A step whose recovery, if it is one, is in time. -/
def TimelyStep (w : World M) (a : WorldAction M) (w' : World M) : Prop :=
  Step w a w' ∧ ∀ r, a = .restart r → w.RecoversInTime r

/-! ## Recovering a record -/

theorem timed_sub (clock : ℕ → ℤ) (boot : ℤ) (ws : List WriteCommand) :
    timed (fun i => clock i - boot) ws = (timed clock ws).map fun x => (x.1 - boot, x.2) := by
  simp [timed, List.mapIdx_eq_zipIdx_map]

/-- The writes that reach the cache in a recovery. -/
theorem replayed_sub (w : World M) (r : RestartTimes) :
    timed (w.recoveryClock r).snapshot (readBack w.server.snapshot) ++
        timed (w.recoveryClock r).aof (readBack w.server.aof) =
      (w.replayed r).map fun x => (x.1 - r.boot, x.2) := by
  rw [replayed, List.map_append, ← timed_sub, ← timed_sub]
  rfl

theorem lastWrite_writesTo (key : Bytes) (ws : List (ℤ × WriteCommand)) (boot : ℤ) :
    WriteLog.lastWrite key (writesTo M (M.home key) (ws.map fun x => (x.1 - boot, x.2))) =
      (lastMention key ws).map fun x => x.2.write (x.1 - boot) := by
  have hkeys : ws.filter (fun x => decide (x.2.key = key) && decide (M.home x.2.key = M.home key)) =
      ws.filter fun x => x.2.key = key := by
    refine List.filter_congr fun x _ => ?_
    by_cases hx : x.2.key = key <;> simp [hx]
  simp only [WriteLog.lastWrite, writesTo, lastMention, List.filter_map, Function.comp_def,
    WriteCommand.key_write, List.filter_filter, List.map_map, List.getLast?_map, hkeys]

theorem mem_timed {clock : ℕ → ℤ} {ws : List WriteCommand} {x : ℤ × WriteCommand}
    (h : x ∈ timed clock ws) : (∃ i, x.1 = clock i) ∧ x.2 ∈ ws := by
  obtain ⟨i, hi, rfl⟩ := List.mem_mapIdx.mp h
  exact ⟨⟨i, rfl⟩, List.getElem_mem hi⟩

/-- What a recovery replays is storable, and replayed after the recovery began. -/
theorem mem_replayed {w : World M} {r : RestartTimes} {x : ℤ × WriteCommand}
    (h : x ∈ w.replayed r) : w.wall ≤ x.1 ∧ x.2.Storable := by
  have hlag : ∀ lag, w.wall ≤ w.replayTime r lag := by
    intro lag
    unfold replayTime
    omega
  rcases List.mem_append.mp h with h | h <;> obtain ⟨⟨i, hi⟩, hmem⟩ := mem_timed h
  · exact ⟨hi ▸ hlag _, storable_of_mem_readBack hmem⟩
  · exact ⟨hi ▸ hlag _, storable_of_mem_readBack hmem⟩

/-- What a `SET` with a ttl stores ends in time. -/
theorem deadline_of_set {key value : Bytes} {ttl : Option Millis} {now : ℤ} {k : Bytes}
    {r : Record Bytes} (h : (WriteCommand.set key value ttl).write now = .put k r) :
    key = k ∧ r.value = value ∧ r.deadline = ttl.map (expiryAt now) := by
  cases h
  exact ⟨rfl, rfl, rfl⟩

/-! ## The invariant -/

/-- What is stored of the last write to a key ends in time. -/
structure Bounded (w : World M) (xs : Fin M.params.numShards → RecencyList Bytes (Record Bytes)) :
    Prop where
  rep : w.server.cache.Rep xs
  started : w.boot ≤ w.wall
  ends : ∀ key t value d, w.lastWrite key = some (t, .set key value (some d)) →
    ∀ r, (xs (M.home key)).lookup key = some r → r.value = value →
      ∃ e, r.deadline = some e ∧ e + w.boot ≤ t + d * nsPerMs

namespace Bounded
variable {w : World M} {xs : Fin M.params.numShards → RecencyList Bytes (Record Bytes)}

theorem init (capacity : ℕ) {wall boot : ℤ} (h : boot ≤ wall) :
    (World.init M capacity wall boot).Bounded fun _ => ∅ :=
  ⟨ShardedCache.Rep.construct capacity, h, fun _ _ _ _ h => by cases h⟩

/-- Removing and reordering entries keeps the bound. -/
theorem shrink (B : w.Bounded xs) {s : Server M}
    {ys : Fin M.params.numShards → RecencyList Bytes (Record Bytes)} (R : s.cache.Rep ys)
    (h : ∀ i k r, (ys i).lookup k = some r → (xs i).lookup k = some r) :
    Bounded { w with server := s } ys :=
  ⟨R, B.started, fun key t value d hlast r hr => B.ends key t value d hlast r (h _ _ _ hr)⟩

/-- A write and the note of it. -/
theorem write (B : w.Bounded xs) {c : WriteCommand} (hc : c.Storable) (queue : List Bytes) :
    Bounded
      { w with
        server := { w.server with processor := ⟨applyWrite w.now c w.server.cache, queue⟩ }
        lastWrite := Function.update w.lastWrite c.key (some (w.wall, c)) }
      (Function.update xs (M.home c.key) ((c.write w.now).apply
        (capacityOf M.params w.server.cache.maxKeys (M.home c.key)) (xs (M.home c.key)))) := by
  refine ⟨B.rep.applyWrite w.now c, B.started, ?_⟩
  intro key t value d hlast r hr hvalue
  change Function.update w.lastWrite c.key (some (w.wall, c)) key = _ at hlast
  by_cases hkey : key = c.key
  · subst hkey
    rw [Function.update_self, Option.some.injEq, Prod.mk.injEq] at hlast
    obtain ⟨rfl, hset⟩ := hlast
    rw [Function.update_self] at hr
    rcases Write.lookup_apply hr with hput | ⟨hne, -⟩
    · rw [hset] at hput hc
      obtain ⟨-, -, hdeadline⟩ := deadline_of_set hput
      refine ⟨_, hdeadline, ?_⟩
      have hnow : 0 ≤ w.now := Int.sub_nonneg_of_le B.started
      have hle := expiryAt_le hnow (hc.2.2 d rfl).1
      have hwall : w.now + d * nsPerMs + w.boot = w.wall + d * nsPerMs := by
        unfold now
        ring
      exact (Int.add_le_add_right hle w.boot).trans hwall.le
    · exact absurd (WriteCommand.key_write w.now c) hne
  · rw [Function.update_of_ne hkey] at hlast
    refine B.ends key t value d hlast r ?_ hvalue
    by_cases hi : M.home key = M.home c.key
    · rw [hi, Function.update_self] at hr
      rcases Write.lookup_apply hr with hput | ⟨-, hprev⟩
      · have := congrArg Write.key hput
        rw [WriteCommand.key_write] at this
        exact absurd this.symm hkey
      · rw [hi]
        exact hprev
    · rwa [Function.update_of_ne hi] at hr

theorem serve (B : w.Bounded xs) (a : ServerAction M) :
    ∃ ys, Bounded { w with server := w.server.step w.instant a, lastWrite := w.noteWrite a } ys := by
  cases a with
  | command line =>
      cases hw : (parseTcpCommand line).write? with
      | some c =>
          have hstep : w.server.step w.instant (.command line) = { w.server with processor :=
              ⟨applyWrite w.now c w.server.cache, w.server.processor.queue ++ [c.line]⟩ } := by
            simp only [Server.step, Processor.executeLine_of_write hw]
            rfl
          simp only [noteWrite, hw, hstep]
          exact ⟨_, B.write (storable_of_write? hw) _⟩
      | none =>
          simp only [noteWrite, hw]
          rcases Processor.executeLine_of_read w.server.processor w.instant.now hw with heq | ⟨key, heq⟩
          · exact ⟨xs, B.shrink (by simp only [Server.step, heq]; exact B.rep) fun _ _ _ h => h⟩
          · refine ⟨_, B.shrink (by simp only [Server.step, heq]; exact B.rep.get key _) ?_⟩
            exact lookup_of_update fun k r => lookup_of_lookedUp
  | flush => exact ⟨xs, B.shrink B.rep fun _ _ _ h => h⟩
  | snapshot ord => exact ⟨xs, B.shrink B.rep fun _ _ _ h => h⟩
  | reap shard =>
      refine ⟨_, B.shrink (B.rep.cleanupShard w.instant.now shard) ?_⟩
      exact lookup_of_update fun k r => lookup_of_liveRecords

/-- What a recovery in time leaves. -/
theorem restart {w : World M} {r : RestartTimes} (hboot : r.boot ≤ w.wall)
    (htimely : w.RecoversInTime r) :
    ∃ ys, Bounded
      { w with
        server := w.server.restart (w.recoveryClock r)
        wall := w.wall + r.took
        boot := r.boot } ys := by
  have R := rep_recoverFromDisk_timed (M := M) w.server.cache.maxKeys (w.recoveryClock r)
    w.server.snapshot w.server.aof
  rw [replayed_sub] at R
  refine ⟨_, R, by change r.boot ≤ w.wall + r.took; omega, ?_⟩
  intro key t value d hlast q hq hvalue
  rcases WriteLog.lookup_replay hq with hwrite | ⟨-, hnone⟩
  · rw [lastWrite_writesTo] at hwrite
    obtain ⟨⟨t', c⟩, hmention, hput⟩ := Option.map_eq_some_iff.mp hwrite
    have hmem := (List.mem_filter.mp (List.mem_of_getLast? hmention)).1
    obtain ⟨hle, hstorable⟩ := mem_replayed hmem
    cases c with
    | del k => cases hput
    | set k v ttl =>
        obtain ⟨rfl, hv, hdeadline⟩ := deadline_of_set hput
        have hsame : v = value := hv.symm.trans hvalue
        subst hsame
        obtain ⟨d', rfl, hends⟩ := htimely k t v d hlast t' ttl hmention
        refine ⟨_, hdeadline, ?_⟩
        have hnow : 0 ≤ t' - r.boot := by
          have : w.wall ≤ t' := hle
          omega
        have hexp := expiryAt_le hnow (hstorable.2.2 d' rfl).1
        have hwall : t' - r.boot + d' * nsPerMs + r.boot = t' + d' * nsPerMs := by ring
        exact (Int.add_le_add_right hexp r.boot).trans (hwall.le.trans hends)
  · cases hnone

theorem step (B : w.Bounded xs) {a : WorldAction M} {w' : World M} (h : TimelyStep w a w') :
    ∃ ys, w'.Bounded ys := by
  obtain ⟨hstep, htimely⟩ := h
  cases a with
  | serve a =>
      cases hstep
      exact B.serve a
  | tick d =>
      cases hstep
      have hstarted : w.boot ≤ w.wall + d := by
        have := B.started
        omega
      exact ⟨xs, B.rep, hstarted, B.ends⟩
  | restart r =>
      simp only [Step, World.step] at hstep
      split at hstep
      · next hboot =>
        cases hstep
        exact restart hboot (htimely r rfl)
      · cases hstep

theorem lifetimesKept (B : w.Bounded xs) : w.LifetimesKept := by
  intro key t value d hlast hover hget
  rw [B.rep.get_eq] at hget
  obtain ⟨r, hr, hread⟩ := Option.bind_eq_some_iff.mp hget
  unfold Record.read at hread
  split at hread
  · cases hread
  · next hlive =>
    obtain ⟨e, he, hle⟩ := B.ends key t value d hlast r hr (Option.some.inj hread)
    apply hlive
    simp only [Record.expired, he, decide_eq_true_eq]
    have hdue : e + w.boot ≤ w.wall := hle.trans hover
    exact Int.le_sub_right_of_add_le hdue

end Bounded

/-- **No lifetime is extended** in a run whose recoveries are in time. -/
theorem lifetimesKept_of_timely {capacity : ℕ} {wall boot : ℤ} (hboot : boot ≤ wall)
    {acts : List (WorldAction M)} {w : World M}
    (hrun : Transition.Run TimelyStep (init M capacity wall boot) acts w) : w.LifetimesKept := by
  have hstep : ∀ (x : World M) a y, TimelyStep x a y → (∃ xs, x.Bounded xs) → ∃ ys, y.Bounded ys := by
    rintro x a y hxy ⟨xs, B⟩
    exact B.step hxy
  obtain ⟨xs, B⟩ := hrun.invariant hstep ⟨_, Bounded.init capacity hboot⟩
  exact B.lifetimesKept

/-! ## A second life -/

/-- The new process finds the clock of the old one and recovers in no time. -/
def atOnce : RestartTimes := ⟨0, 0, fun _ => 0, fun _ => 0⟩

/-- A key is set for a second and logged, the process is restarted, and time passes. -/
def restartAfter (before after : ℕ) : List (WorldAction Platform.oneShard) :=
  [.serve (.command (ascii "SET k v 1000")), .serve .flush, .tick before, .restart atOnce,
    .tick after]

theorem timely_of_serve {w w' : World M} {a : ServerAction M} (h : Step w (.serve a) w') :
    TimelyStep w (.serve a) w' := ⟨h, fun _ hr => by cases hr⟩

theorem timely_of_tick {w w' : World M} {d : ℕ} (h : Step w (.tick d) w') :
    TimelyStep w (.tick d) w' := ⟨h, fun _ hr => by cases hr⟩

/-- A restart without delay extends nothing. -/
theorem lifetimesKept_of_timely_atOnce :
    ∃ w, Transition.Run TimelyStep (init Platform.oneShard 128 0 0) (restartAfter 0 1000000000) w ∧
      w.LifetimesKept := by
  let c : WriteCommand := .set (ascii "k") (ascii "v") (some 1000)
  let set : ServerAction Platform.oneShard := .command (ascii "SET k v 1000")
  let w₀ := init Platform.oneShard 128 0 0
  let w₁ : World Platform.oneShard :=
    { w₀ with server := w₀.server.step w₀.instant set, lastWrite := w₀.noteWrite set }
  let w₂ : World Platform.oneShard :=
    { w₁ with server := w₁.server.flush, wall := w₁.wall + (0 : ℕ) }
  let w₃ : World Platform.oneShard :=
    { w₂ with server := w₂.server.restart (w₂.recoveryClock atOnce), wall := w₂.wall + (0 : ℕ),
              boot := 0 }
  have hnote : w₂.lastWrite = Function.update (fun _ => none) (ascii "k") (some (0, c)) := by
    have hparse : (parseTcpCommand (ascii "SET k v 1000")).write? = some c := by decide +kernel
    simp only [w₂, w₁, w₀, set, noteWrite, hparse]
    rfl
  have hmention : lastMention (ascii "k") (w₂.replayed atOnce) = some (0, c) := by decide +kernel
  have htimely : w₂.RecoversInTime atOnce := by
    intro key t value d hlast t' ttl hlater
    by_cases hkey : key = ascii "k"
    · subst hkey
      rw [hnote, Function.update_self] at hlast
      rw [hmention] at hlater
      simp only [c, Option.some.injEq, Prod.mk.injEq, WriteCommand.set.injEq] at hlast hlater
      obtain ⟨rfl, -, -, rfl⟩ := hlast
      obtain ⟨rfl, -, -, rfl⟩ := hlater
      exact ⟨1000, rfl, le_rfl⟩
    · rw [hnote, Function.update_of_ne hkey] at hlast
      cases hlast
  have hrestart : TimelyStep w₂ (.restart atOnce) w₃ := by
    have hboot : atOnce.boot ≤ w₂.wall := by decide
    constructor
    · simp only [Step, step, if_pos hboot]
      rfl
    · intro r hr
      cases hr
      exact htimely
  have hrun : ∃ w, Transition.Run TimelyStep w₀ (restartAfter 0 1000000000) w :=
    ⟨_, .cons (timely_of_serve rfl) (.cons (timely_of_serve rfl) (.cons (t := w₂)
      (timely_of_tick rfl) (.cons hrestart (.cons (timely_of_tick rfl) (.nil _)))))⟩
  obtain ⟨w, hw⟩ := hrun
  exact ⟨w, hw, lifetimesKept_of_timely le_rfl hw⟩

/-- A key set for one second is still there 1.1 seconds later, if the process was restarted after
half a second. -/
theorem value_outlives_ttl :
    ¬ ∀ (capacity : ℕ) (wall boot : ℤ) (acts : List (WorldAction Platform.oneShard))
      (w : World Platform.oneShard), boot ≤ wall →
      Transition.Run Step (init Platform.oneShard capacity wall boot) acts w → w.LifetimesKept := by
  intro h
  let acts := restartAfter 500000000 600000000
  let w := (Transition.exec step acts (init Platform.oneShard 128 0 0)).get (by decide +kernel)
  have hrun : Transition.Run Step (init Platform.oneShard 128 0 0) acts w :=
    Transition.run_of_exec (Option.some_get _).symm
  have hlast : w.lastWrite (ascii "k") =
      some (0, .set (ascii "k") (ascii "v") (some 1000)) := by decide +kernel
  have hover : 0 + 1000 * nsPerMs ≤ w.wall := by decide +kernel
  have hread : (w.server.cache.get (ascii "k") w.now).1 = some (ascii "v") := by decide +kernel
  exact h 128 0 0 acts w le_rfl hrun (ascii "k") 0 (ascii "v") 1000 hlast hover hread

end World
end MiniRedis
