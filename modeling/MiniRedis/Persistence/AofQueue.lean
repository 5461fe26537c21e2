import MiniRedis.Persistence.Log

/-!
# The queue and the thread that writes it out

`enqueue_line` appends to the queue. `aof_loop` takes everything from the queue, writes it to a
stream and flushes the stream, again and again; when it finds that a stop was requested it does so a
last time. A stream passes on what is written to it when it is flushed at the latest, and it may
pass on a part of it, even a part of a line, at any time before.

At every moment the lines in the file and the stream, those of the batch that are still to be
written and those in the queue are the lines that were enqueued, in order (`InOrder`).
-/
namespace MiniRedis

/-- Where `aof_loop` is. The last round, after the loop, is told apart by a flag. -/
inductive AofPc
  /-- The condition of the loop. -/
  | test
  /-- The queue is moved to the batch. -/
  | drain (last : Bool)
  /-- The next of the lines is written, or the stream is flushed when there is none. -/
  | write (last : Bool) (rest : List Bytes)
  /-- Is a rewrite requested? -/
  | exchange
  | truncate
  | exited
  deriving DecidableEq, Repr

/-- The queue, the file, and what `aof_loop` works with. -/
structure AofWorker where
  pc : AofPc
  queue : List Bytes
  batch : List Bytes
  /-- What was written to the stream and not passed on yet. -/
  buffer : Bytes
  file : Bytes
  stop : Bool
  rewriteRequested : Bool
  /-- What rewrites have cut off the file. Nothing depends on it. -/
  truncated : Bytes
  deriving DecidableEq, Repr

inductive AofAction
  | enqueueLine (line : Bytes)
  | requestStop
  | requestAofRewrite
  /-- The thread makes a step. A relaxed load may miss a stop that was just requested, and a write
  passes on some of the bytes in the stream. -/
  | work (seesStop : Bool) (passed : ℕ)
  deriving DecidableEq, Repr

namespace AofWorker

/-- The file is opened for appending. -/
def start (file : Bytes) : AofWorker := ⟨.test, [], [], [], file, false, false, []⟩

/-- A step of `aof_loop`. -/
def work (seesStop : Bool) (passed : ℕ) (s : AofWorker) : AofWorker :=
  match s.pc with
  | .test => { s with pc := .drain (seesStop && s.stop) }
  | .drain last =>
      let batch := s.batch ++ s.queue
      { s with
        queue := []
        batch := batch
        pc := if batch.isEmpty then (if last then .exited else .exchange) else .write last batch }
  | .write last (line :: rest) =>
      let text := s.buffer ++ (line ++ [newline])
      { s with pc := .write last rest, file := s.file ++ text.take passed, buffer := text.drop passed }
  | .write last [] =>
      { s with
        file := s.file ++ s.buffer
        buffer := []
        batch := if last then s.batch else []
        pc := if last then .exited else .exchange }
  | .exchange =>
      if s.rewriteRequested then { s with pc := .truncate, rewriteRequested := false }
      else { s with pc := .test }
  | .truncate =>
      -- closing the stream passes on the rest before the file is cut
      { s with pc := .test, file := [], buffer := [], truncated := s.truncated ++ (s.file ++ s.buffer) }
  | .exited => s

def step (s : AofWorker) : AofAction → AofWorker
  | .enqueueLine line => { s with queue := s.queue ++ [line] }
  | .requestStop => { s with stop := true }
  | .requestAofRewrite => { s with rewriteRequested := true }
  | .work seesStop passed => s.work seesStop passed

def run (s : AofWorker) (acts : List AofAction) : AofWorker := acts.foldl step s

/-- The lines of the batch that are still to be written. -/
def unwritten (s : AofWorker) : List Bytes :=
  match s.pc with
  | .write _ rest => rest
  | .exited => []
  | _ => s.batch

end AofWorker

/-- The lines that are enqueued. -/
def enqueuedLines (acts : List AofAction) : List Bytes :=
  acts.filterMap fun
    | .enqueueLine line => some line
    | _ => none

namespace AofWorker

/-- The file, followed by what is in the stream, has been extended by the added lines; these, the
unwritten part of the batch and the queue are all lines in order. -/
structure InOrder (file : Bytes) (lines added : List Bytes) (s : AofWorker) : Prop where
  text : s.truncated ++ (s.file ++ s.buffer) = file ++ aofText added
  order : added ++ s.unwritten ++ s.queue = lines
  /-- Outside the writing phase the stream has passed on everything. -/
  passed : (∀ last rest, s.pc ≠ .write last rest) → s.buffer = []
  /-- What was cut off are the contents of the file at some time. -/
  cut : s.truncated = [] ∨ ∃ old, old <+: added ∧ s.truncated = file ++ aofText old

namespace InOrder
variable {file : Bytes} {lines added : List Bytes} {s : AofWorker}

theorem start (file : Bytes) : InOrder file [] [] (AofWorker.start file) :=
  ⟨by simp [AofWorker.start], rfl, fun _ => rfl, .inl rfl⟩

theorem enqueueLine (I : InOrder file lines added s) (line : Bytes) :
    InOrder file (lines ++ [line]) added (s.step (.enqueueLine line)) := by
  refine ⟨I.text, ?_, I.passed, I.cut⟩
  rw [← I.order, List.append_assoc _ s.queue]
  rfl

/-- **A step of the thread** moves lines on and keeps their order. -/
theorem work (I : InOrder file lines added s) (seesStop : Bool) (passed : ℕ) :
    ∃ added', InOrder file lines added' (s.work seesStop passed) := by
  obtain ⟨htext, horder, hpassed, hcut⟩ := I
  unfold unwritten at horder
  cases hpc : s.pc with
  | test =>
      rw [hpc] at horder hpassed
      simp only [AofWorker.work, hpc]
      exact ⟨added, htext, horder, fun _ => hpassed (by simp), hcut⟩
  | drain last =>
      rw [hpc] at horder hpassed
      have hbuffer := hpassed (by simp)
      simp only [List.append_assoc] at horder
      cases hempty : (s.batch ++ s.queue).isEmpty with
      | true =>
          have hnil := List.isEmpty_iff.mp hempty
          rw [hnil] at horder
          simp only [AofWorker.work, hpc, hempty, if_true]
          refine ⟨added, htext, ?_, fun _ => hbuffer, hcut⟩
          cases last <;> simpa [unwritten, hnil] using horder
      | false =>
          simp only [AofWorker.work, hpc, hempty, Bool.false_eq_true, if_false]
          exact ⟨added, htext, by simpa [unwritten] using horder, fun _ => hbuffer, hcut⟩
  | write last rest =>
      rw [hpc] at horder
      cases rest with
      | nil =>
          simp only [AofWorker.work, hpc]
          refine ⟨added, by simpa using htext, ?_, fun _ => rfl, hcut⟩
          cases last <;> simpa [unwritten] using horder
      | cons line rest =>
          simp only [AofWorker.work, hpc]
          refine ⟨added ++ [line], ?_, by simpa [unwritten] using horder,
            fun h => absurd rfl (h _ _), ?_⟩
          · simp only [List.append_assoc, List.take_append_drop]
            rw [← List.append_assoc s.file, ← List.append_assoc s.truncated, htext]
            simp [aofText]
          · refine hcut.imp_right ?_
            rintro ⟨old, hold, heq⟩
            exact ⟨old, hold.trans (List.prefix_append _ _), heq⟩
  | exchange =>
      rw [hpc] at horder hpassed
      simp only [AofWorker.work, hpc]
      split
      · exact ⟨added, htext, horder, fun _ => hpassed (by simp), hcut⟩
      · exact ⟨added, htext, horder, fun _ => hpassed (by simp), hcut⟩
  | truncate =>
      rw [hpc] at horder
      simp only [AofWorker.work, hpc]
      exact ⟨added, by simpa using htext, horder, fun _ => rfl, .inr ⟨added, List.prefix_rfl, htext⟩⟩
  | exited =>
      rw [hpc] at horder hpassed
      simp only [AofWorker.work, hpc]
      exact ⟨added, htext, by simpa [unwritten, hpc] using horder, fun _ => hpassed (by simp), hcut⟩

end InOrder

/-! ## Runs -/

section Runs
variable (file : Bytes) (acts : List AofAction)

theorem run_snoc (a : AofAction) (s : AofWorker) : s.run (acts ++ [a]) = (s.run acts).step a :=
  List.foldl_append

theorem enqueuedLines_snoc (a : AofAction) : enqueuedLines (acts ++ [a]) =
    enqueuedLines acts ++ enqueuedLines [a] := List.filterMap_append

theorem inOrder_run : ∃ added, InOrder file (enqueuedLines acts) added ((start file).run acts) := by
  induction acts using List.reverseRecOn with
  | nil => exact ⟨[], .start file⟩
  | append_singleton acts a ih =>
      obtain ⟨added, I⟩ := ih
      rw [run_snoc, enqueuedLines_snoc]
      cases a with
      | enqueueLine line => exact ⟨added, I.enqueueLine line⟩
      | requestStop | requestAofRewrite =>
          refine ⟨added, I.text, ?_, I.passed, I.cut⟩
          exact I.order.trans (List.append_nil _).symm
      | work seesStop passed =>
          obtain ⟨added', I'⟩ := I.work seesStop passed
          exact ⟨added', I'.text, I'.order.trans (List.append_nil _).symm, I'.passed, I'.cut⟩

/-- A file that no rewrite was requested for is not going to be cut. -/
structure Uncut (s : AofWorker) : Prop where
  truncated : s.truncated = []
  request : s.rewriteRequested = false
  pc : s.pc ≠ .truncate

theorem Uncut.work {s : AofWorker} (U : s.Uncut) (seesStop : Bool) (passed : ℕ) :
    (s.work seesStop passed).Uncut := by
  obtain ⟨htruncated, hrequest, hne⟩ := U
  cases hpc : s.pc with
  | test =>
      simp only [AofWorker.work, hpc]
      exact ⟨htruncated, hrequest, by simp⟩
  | drain last =>
      simp only [AofWorker.work, hpc]
      refine ⟨htruncated, hrequest, ?_⟩
      cases (s.batch ++ s.queue).isEmpty <;> cases last <;> simp
  | write last rest =>
      cases rest with
      | nil =>
          simp only [AofWorker.work, hpc]
          exact ⟨htruncated, hrequest, by cases last <;> simp⟩
      | cons line rest =>
          simp only [AofWorker.work, hpc]
          exact ⟨htruncated, hrequest, by simp⟩
  | exchange =>
      simp only [AofWorker.work, hpc, hrequest, Bool.false_eq_true, if_false]
      exact ⟨htruncated, rfl, by simp⟩
  | truncate => exact absurd hpc hne
  | exited =>
      simp only [AofWorker.work, hpc]
      exact ⟨htruncated, hrequest, hne⟩

theorem uncut_run (h : .requestAofRewrite ∉ acts) : ((start file).run acts).Uncut := by
  induction acts using List.reverseRecOn with
  | nil => exact ⟨rfl, rfl, by simp [run, start]⟩
  | append_singleton acts a ih =>
      simp only [List.mem_append, List.mem_singleton, not_or] at h
      have U := ih h.1
      rw [run_snoc]
      cases a with
      | enqueueLine line | requestStop => exact ⟨U.truncated, U.request, U.pc⟩
      | requestAofRewrite => exact absurd rfl h.2
      | work seesStop passed => exact U.work seesStop passed

/-- The last drain is over. -/
def Leaving (s : AofWorker) : Prop := (∃ rest, s.pc = .write true rest) ∨ s.pc = .exited

theorem leaving_work {s : AofWorker} {seesStop : Bool} {passed : ℕ}
    (h : (s.work seesStop passed).Leaving) :
    (s.Leaving ∧ (s.work seesStop passed).queue = s.queue) ∨
      (s.pc = .drain true ∧ (s.work seesStop passed).queue = []) := by
  cases hpc : s.pc with
  | test => simp [Leaving, AofWorker.work, hpc] at h
  | drain last =>
      cases last with
      | true => exact .inr ⟨rfl, by simp only [AofWorker.work, hpc]⟩
      | false =>
          exfalso
          simp only [Leaving, AofWorker.work, hpc] at h
          cases hempty : (s.batch ++ s.queue).isEmpty <;> simp [hempty] at h
  | write last rest =>
      cases last with
      | true =>
          refine .inl ⟨.inl ⟨rest, hpc⟩, ?_⟩
          cases rest <;> simp only [AofWorker.work, hpc]
      | false => cases rest <;> simp [Leaving, AofWorker.work, hpc] at h
  | exchange => cases hr : s.rewriteRequested <;> simp [Leaving, AofWorker.work, hpc, hr] at h
  | truncate => simp [Leaving, AofWorker.work, hpc] at h
  | exited => exact .inl ⟨.inr hpc, by simp only [AofWorker.work, hpc]⟩

/-- What is enqueued after the last drain stays in the queue. -/
theorem exists_last_drain (h : ((start file).run acts).Leaving) :
    ∃ before seesStop passed after, acts = before ++ .work seesStop passed :: after ∧
      ((start file).run before).pc = .drain true ∧
      ((start file).run acts).queue = enqueuedLines after := by
  induction acts using List.reverseRecOn with
  | nil => simp [Leaving, run, start] at h
  | append_singleton acts a ih =>
      rw [run_snoc] at h ⊢
      have hlater : ((start file).run acts).Leaving →
          (((start file).run acts).step a).queue =
            ((start file).run acts).queue ++ enqueuedLines [a] →
          ∃ before seesStop passed after, acts ++ [a] = before ++ .work seesStop passed :: after ∧
            ((start file).run before).pc = .drain true ∧
            (((start file).run acts).step a).queue = enqueuedLines after := by
        intro hleaving hqueue
        obtain ⟨before, seesStop, passed, after, hacts, hpc, hafter⟩ := ih hleaving
        refine ⟨before, seesStop, passed, after ++ [a], by rw [hacts]; simp, hpc, ?_⟩
        rw [hqueue, hafter, enqueuedLines_snoc]
      cases a with
      | enqueueLine line => exact hlater h rfl
      | requestStop | requestAofRewrite => exact hlater h (List.append_nil _).symm
      | work seesStop passed =>
          rcases leaving_work h with ⟨hleaving, hqueue⟩ | ⟨hpc, hqueue⟩
          · exact hlater hleaving (hqueue.trans (List.append_nil _).symm)
          · exact ⟨acts, seesStop, passed, [], rfl, hpc, hqueue⟩

end Runs

/-- **Nothing is lost, duplicated or reordered**, and what was enqueued before the last drain is
written in the end. -/
theorem queue_in_order (file : Bytes) {acts : List AofAction} (h : .requestAofRewrite ∉ acts) :
    let s := (start file).run acts
    ∃ added, s.file ++ s.buffer = file ++ aofText added ∧
      added ++ s.unwritten ++ s.queue = enqueuedLines acts ∧ added <+: enqueuedLines acts ∧
      (s.pc = .exited → s.buffer = [] ∧ ∃ before seesStop passed after,
        acts = before ++ .work seesStop passed :: after ∧
          ((start file).run before).pc = .drain true ∧ added = enqueuedLines before) := by
  intro s
  obtain ⟨added, I⟩ := inOrder_run file acts
  have htext := I.text
  rw [(uncut_run file acts h).truncated, List.nil_append] at htext
  refine ⟨added, htext, I.order, ?_, ?_⟩
  · rw [← I.order, List.append_assoc]
    exact List.prefix_append _ _
  · intro hexited
    have hpc : ((start file).run acts).pc = .exited := hexited
    refine ⟨I.passed (by simp [hpc]), ?_⟩
    obtain ⟨before, seesStop, passed, after, hacts, hdrain, hqueue⟩ :=
      exists_last_drain file acts (.inr hpc)
    refine ⟨before, seesStop, passed, after, hacts, hdrain, ?_⟩
    have horder := I.order
    rw [hqueue] at horder
    simp only [unwritten, hpc, List.append_nil] at horder
    have hall : enqueuedLines acts = enqueuedLines before ++ enqueuedLines after := by
      rw [hacts, enqueuedLines, List.filterMap_append]
      rfl
    rw [hall] at horder
    exact List.append_cancel_right horder

/-- One line is written, the next one comes after the last drain. -/
def lateLine : List AofAction :=
  [.enqueueLine (ascii "DEL a"), .requestStop, .work true 0, .work true 0, .enqueueLine (ascii "DEL b"),
    .work true 3, .work true 0]

theorem queue_in_order_lateLine :
    ∃ added, ((start []).run lateLine).file ++ ((start []).run lateLine).buffer = aofText added ∧
      added ++ ((start []).run lateLine).unwritten ++ ((start []).run lateLine).queue =
        enqueuedLines lateLine ∧ added <+: enqueuedLines lateLine ∧
      (((start []).run lateLine).pc = .exited → ((start []).run lateLine).buffer = [] ∧
        ∃ before seesStop passed after, lateLine = before ++ .work seesStop passed :: after ∧
          ((start []).run before).pc = .drain true ∧ added = enqueuedLines before) :=
  queue_in_order [] (by decide +kernel)

end AofWorker
end MiniRedis
