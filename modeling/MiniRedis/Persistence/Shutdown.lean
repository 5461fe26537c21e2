import MiniRedis.Lib.Fairness
import MiniRedis.Persistence.Destructor

/-!
# The destructor returns

A thread that waits on its condition variable wakes up at the timeout at the latest, so it does not
matter whether a notification of the destructor comes while it waits or is lost. If a stop that is
stored becomes visible at some time, and the scheduler passes over no thread, each thread leaves its
loop after a number of steps, the destructor can join it, and the process ends with files that an
orderly shutdown leaves.
-/
namespace MiniRedis
variable {M : Platform}

inductive ProcessThread
  | worker (worker : Worker)
  | destructor
  /-- The memory in which the stop of a worker is stored. -/
  | memory (worker : Worker)
  deriving DecidableEq, Repr

/-- Who takes a step. The clients and the rest of the program need not take any. -/
def ProcessAction.thread : ProcessAction M → Option ProcessThread
  | .propagate worker => some (.memory worker)
  | .aof _ => some (.worker .aof)
  | .snapshot .. => some (.worker .snapshot)
  | .reaper _ => some (.worker .reaper)
  | .destructor => some .destructor
  | .write .. | .enqueue _ | .get .. | .requestAofRewrite | .destroy | .other => none

namespace Process
variable {s s' s₀ : Process M} {a : ProcessAction M} {worker : Worker}

/-- The function of the worker has returned. -/
def Exited : Worker → Process M → Prop
  | .aof, s => s.daemon.aof.pc = .exited
  | .snapshot, s => s.loop = .exited
  | .reaper, s => s.reaper = .exited

/-- Who can take a step. -/
def Ready : ProcessThread → Process M → Prop
  | .worker worker, s => ¬ s.Exited worker
  | .destructor, s => s.destructorStep.isSome
  | .memory worker, s => s.Stopped worker ∧ s.seen worker = false

/-! ## How far a worker has to go -/

/-- Steps of `aof_loop`, once it loads the stop and nothing is enqueued any more. -/
def aofToGo (s : AofWorker) : ℕ :=
  match s.pc with
  | .exited => 0
  | .write true rest => rest.length + 1
  | .drain true => s.batch.length + s.queue.length + 2
  | .test => s.batch.length + s.queue.length + 3
  | .truncate => s.batch.length + s.queue.length + 4
  | .exchange => s.batch.length + s.queue.length + 5
  | .write false rest => rest.length + s.queue.length + 6
  | .drain false => s.batch.length + s.queue.length + 7

/-- Steps of `write_snapshot_file`. -/
def dumpToGo : DumpPc M → ℕ
  | .idle => M.params.numShards + 4
  | .collect _ rest _ => rest.length + 3
  | .remove _ => 2
  | .rename _ => 1

/-- Steps of a worker, once it loads the stop. -/
def toGo : Worker → Process M → ℕ
  | .aof, s => aofToGo s.daemon.aof
  | .snapshot, s =>
      match s.loop with
      | .exited => 0
      | .writing true => dumpToGo s.daemon.dump
      | .waiting => M.params.numShards + 5
      | .writing false => dumpToGo s.daemon.dump + M.params.numShards + 6
  | .reaper, s =>
      match s.reaper with
      | .exited => 0
      | .test => 1
      | .cleanup _ rest => rest.length + 2
      | .asleep => M.params.numShards + 3

section Fair
variable {ρ : Transition.Path (@Step M)}

/-- The scheduler runs every thread that can step, and what is stored becomes visible. -/
def FairlyScheduled (ρ : Transition.Path (@Step M)) : Prop :=
  ∀ thread, ρ.Fair (Ready thread) fun a => a.thread = some thread

end Fair

theorem step_other (s : Process M) : Step s .other s := rfl

/-- The destructor has returned, and all workers know of the stop. -/
def AtRest (s : Process M) : Prop :=
  s.destructor = .destroyed ∧ s.daemon.aof.pc = .exited ∧ s.loop = .exited ∧ s.reaper = .exited ∧
    s.seen .aof ∧ s.seen .snapshot ∧ s.seen .reaper

instance (s : Process M) : Decidable s.AtRest := inferInstanceAs (Decidable (_ ∧ _))

/-- Then no thread can take a step. -/
theorem not_ready (h : s.AtRest) (thread : ProcessThread) : ¬ s.Ready thread := by
  obtain ⟨hdestroyed, haof, hloop, hreaper, hseen⟩ := h
  cases thread with
  | worker worker => cases worker <;> simp [Ready, Exited, haof, hloop, hreaper]
  | destructor => simp [Ready, destructorStep, hdestroyed]
  | memory worker => cases worker <;> simp [Ready, hseen]

end Process
end MiniRedis
