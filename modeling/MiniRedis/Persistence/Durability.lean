import MiniRedis.Persistence.Shutdown

/-!
# Every write becomes durable

A write that has taken effect is put into the queue when its client goes on, and the thread of the
append-only file comes round to it, however many lines other clients put into the queue in the meantime,
and also when the destructor is called. It is then in the file, right behind everything that had been
enqueued before, and stays there until a rewrite cuts it off.
-/
namespace MiniRedis
variable {M : Platform}

namespace AofWorker
variable (s : AofWorker) (seesStop : Bool) (passed : ℕ)

/-- What has reached the file, with what rewrites have cut off. -/
def durable : Bytes := s.truncated ++ s.file

/-- What has been taken out of the queue. -/
def drained : Bytes := s.durable ++ (s.buffer ++ aofText s.unwritten)

/-- What has been put into the queue. -/
def log : Bytes := s.drained ++ aofText s.queue

@[simp] theorem log_enqueueLine (line : Bytes) :
    (s.step (.enqueueLine line)).log = s.log ++ (line ++ [newline]) := by
  have hdrained : (s.step (.enqueueLine line)).drained = s.drained := rfl
  have hqueue : (s.step (.enqueueLine line)).queue = s.queue ++ [line] := rfl
  simp [log, hdrained, hqueue, aofText]

/-- Only a drain takes lines out of the queue. -/
theorem drained_work (h : ∀ last, s.pc ≠ .drain last) :
    (s.work seesStop passed).drained = s.drained := by
  cases hpc : s.pc with
  | test => simp [drained, durable, unwritten, work, hpc]
  | drain last => exact absurd hpc (h last)
  | write last rest =>
      cases rest with
      | nil => cases last <;> simp [drained, durable, unwritten, work, hpc]
      | cons line rest =>
          have htext := List.take_append_drop passed (s.buffer ++ (line ++ [newline]))
          simp only [drained, durable, unwritten, work, hpc, List.append_assoc]
          rw [← List.append_assoc (List.take _ _), htext]
          simp [aofText]
  | exchange =>
      cases hrequest : s.rewriteRequested <;> simp [drained, durable, unwritten, work, hpc, hrequest]
  | truncate => simp [drained, durable, unwritten, work, hpc]
  | exited => simp [work, hpc]

theorem queue_work (h : ∀ last, s.pc ≠ .drain last) : (s.work seesStop passed).queue = s.queue := by
  cases hpc : s.pc with
  | drain last => exact absurd hpc (h last)
  | write last rest => cases rest <;> simp [work, hpc]
  | exchange => cases hrequest : s.rewriteRequested <;> simp [work, hpc, hrequest]
  | test | truncate | exited => simp [work, hpc]

variable {s} in
/-- A drain takes all of them. -/
theorem drained_drain {last : Bool} (hpc : s.pc = .drain last) :
    (s.work seesStop passed).drained = s.log ∧ (s.work seesStop passed).queue = [] := by
  refine ⟨?_, by simp only [work, hpc]⟩
  cases hempty : (s.batch ++ s.queue).isEmpty with
  | true =>
      obtain ⟨hbatch, hqueue⟩ := List.append_eq_nil_iff.mp (List.isEmpty_iff.mp hempty)
      cases last <;> simp [log, drained, durable, unwritten, work, hpc, hbatch, hqueue]
  | false => simp [log, drained, durable, unwritten, work, hpc, hempty]

/-- The thread moves lines on, and loses none. -/
theorem log_work : (s.work seesStop passed).log = s.log := by
  by_cases h : ∃ last, s.pc = .drain last
  · obtain ⟨last, hpc⟩ := h
    obtain ⟨hdrained, hqueue⟩ := drained_drain seesStop passed hpc
    rw [log, hdrained, hqueue, aofText_nil, List.append_nil]
  · push Not at h
    rw [log, drained_work s seesStop passed h, queue_work s seesStop passed h, log]

theorem durable_work : s.durable <+: (s.work seesStop passed).durable := by
  cases hpc : s.pc with
  | write last rest =>
      cases rest <;> simp [durable, work, hpc]
  | exchange => cases hrequest : s.rewriteRequested <;> simp [durable, work, hpc, hrequest]
  | truncate => simp [durable, work, hpc]
  | test | drain | exited => simp [durable, work, hpc]

/-! ## Nothing goes back -/

variable (a : AofAction)

theorem log_step : s.log <+: (s.step a).log := by
  cases a with
  | enqueueLine line =>
      rw [log_enqueueLine]
      exact List.prefix_append _ _
  | requestStop | requestAofRewrite => exact List.prefix_rfl
  | work seesStop passed => exact (log_work s seesStop passed).symm ▸ List.prefix_rfl

theorem drained_step : s.drained <+: (s.step a).drained := by
  cases a with
  | enqueueLine | requestStop | requestAofRewrite => exact List.prefix_rfl
  | work seesStop passed =>
      by_cases h : ∃ last, s.pc = .drain last
      · obtain ⟨last, hpc⟩ := h
        have hdrained := (drained_drain seesStop passed hpc).1
        exact hdrained.symm ▸ List.prefix_append _ _
      · push Not at h
        exact (drained_work s seesStop passed h).symm ▸ List.prefix_rfl

theorem durable_step : s.durable <+: (s.step a).durable := by
  cases a with
  | enqueueLine | requestStop | requestAofRewrite => exact List.prefix_rfl
  | work seesStop passed => exact durable_work s seesStop passed

/-- What is on its way is on its way somewhere. -/
structure Tidy (s : AofWorker) : Prop where
  /-- Outside the writing phase everything that was taken out of the queue is in the file. -/
  idle : (∀ last rest, s.pc ≠ .write last rest) → s.buffer = [] ∧ s.unwritten = []
  /-- Nothing is put into the queue after the last drain. -/
  leaving : s.Leaving → s.queue = []

variable {s}

theorem Tidy.work (T : s.Tidy) : (s.work seesStop passed).Tidy := by
  refine ⟨?_, ?_⟩
  · intro hpc'
    have hidle := T.idle
    unfold unwritten at hidle
    cases hpc : s.pc with
    | test | truncate | exited =>
        obtain ⟨hbuffer, hunwritten⟩ := hidle (by simp [hpc])
        simp only [hpc] at hunwritten
        simp [AofWorker.work, unwritten, hpc, hbuffer, hunwritten]
    | drain last =>
        obtain ⟨hbuffer, -⟩ := hidle (by simp [hpc])
        cases hempty : (s.batch ++ s.queue).isEmpty with
        | true =>
            have hnil := List.isEmpty_iff.mp hempty
            cases last <;> simp [AofWorker.work, unwritten, hpc, hnil, hbuffer]
        | false => simp [AofWorker.work, hpc, hempty] at hpc'
    | write last rest =>
        cases rest with
        | nil => cases last <;> simp [AofWorker.work, unwritten, hpc]
        | cons line rest => simp [AofWorker.work, hpc] at hpc'
    | exchange =>
        obtain ⟨hbuffer, hunwritten⟩ := hidle (by simp [hpc])
        simp only [hpc] at hunwritten
        cases hrequest : s.rewriteRequested <;>
          simp [AofWorker.work, unwritten, hpc, hrequest, hbuffer, hunwritten]
  · intro hleaving
    rcases leaving_work hleaving with ⟨hbefore, hqueue⟩ | ⟨-, hqueue⟩
    · exact hqueue.trans (T.leaving hbefore)
    · exact hqueue

theorem Tidy.enqueueLine (T : s.Tidy) (h : ¬ s.Leaving) (line : Bytes) :
    (s.step (.enqueueLine line)).Tidy := ⟨T.idle, fun hleaving => absurd hleaving h⟩

theorem Tidy.durable_eq (T : s.Tidy) (h : ∀ last rest, s.pc ≠ .write last rest) :
    s.durable = s.drained := by
  obtain ⟨hbuffer, hunwritten⟩ := T.idle h
  simp [drained, hbuffer, hunwritten]

/-! ## How far the thread has to go -/

/-- Steps of `aof_loop` until it drains the queue. -/
def awaitsDrain : AofPc → ℕ
  | .drain _ | .write true _ | .exited => 0
  | .test => 1
  | .truncate => 2
  | .exchange => 3
  | .write false rest => rest.length + 4

/-- Steps of `aof_loop` until it has written the batch. -/
def awaitsFlush : AofPc → ℕ
  | .write _ rest => rest.length
  | .test | .drain _ | .exchange | .truncate | .exited => 0

variable {text : Bytes}

/-- As long as a text is in the queue only, each step brings the thread nearer to the next drain. -/
theorem awaitsDrain_work (T : s.Tidy) (hlog : text <+: s.log) (hnot : ¬ text <+: s.drained)
    (hnot' : ¬ text <+: (s.work seesStop passed).drained) :
    awaitsDrain (s.work seesStop passed).pc < awaitsDrain s.pc := by
  have hstays : ¬ s.Leaving := by
    intro hleaving
    rw [log, T.leaving hleaving, aofText_nil, List.append_nil] at hlog
    exact hnot hlog
  cases hpc : s.pc with
  | drain last => exact absurd ((drained_drain seesStop passed hpc).1 ▸ hlog) hnot'
  | write last rest =>
      cases last with
      | true => exact absurd (.inl ⟨rest, hpc⟩) hstays
      | false => cases rest <;> simp [work, hpc, awaitsDrain]
  | exited => exact absurd (.inr hpc) hstays
  | exchange => cases hrequest : s.rewriteRequested <;> simp [work, hpc, hrequest, awaitsDrain]
  | test | truncate => simp [work, hpc, awaitsDrain]

/-- As long as a text is on its way to the file, each step brings the thread nearer to the flush. -/
theorem awaitsFlush_work (T : s.Tidy) (hdrained : text <+: s.drained) (hnot : ¬ text <+: s.durable)
    (hnot' : ¬ text <+: (s.work seesStop passed).durable) :
    awaitsFlush (s.work seesStop passed).pc < awaitsFlush s.pc := by
  by_cases hwrite : ∃ last rest, s.pc = .write last rest
  · obtain ⟨last, rest, hpc⟩ := hwrite
    cases rest with
    | nil =>
        have hsame := drained_work s seesStop passed (by simp [hpc])
        have hflushed := (T.work seesStop passed).durable_eq (by cases last <;> simp [work, hpc])
        exact absurd (hflushed.trans hsame ▸ hdrained) hnot'
    | cons line rest => simp [work, hpc, awaitsFlush]
  · push Not at hwrite
    exact absurd (T.durable_eq hwrite ▸ hdrained) hnot

end AofWorker

namespace Process
variable {s s' : Process M} {a : ProcessAction M}

/-! ## The steps of a process -/

theorem aof_of_step (h : Step s a s') :
    s'.daemon.aof = s.daemon.aof ∨ ∃ b, s'.daemon.aof = s.daemon.aof.step b := by
  cases move_of_step h with
  | enqueue client w => exact .inr ⟨.enqueueLine w.line, rfl⟩
  | requestAofRewrite => exact .inr ⟨.requestAofRewrite, rfl⟩
  | destroy => exact .inr ⟨.requestStop, rfl⟩
  | aof passed => exact .inr ⟨.work (s.seen .aof) passed, rfl⟩
  | dump t ord => exact .inl (Daemon.dumpStep_aof t ord s.daemon)
  | _ => exact .inl rfl

theorem aof_of_worker (h : Step s a s') (ha : a.thread = some (.worker .aof)) :
    ∃ seesStop passed, s'.daemon.aof = s.daemon.aof.work seesStop passed := by
  cases move_of_step h with
  | aof passed => exact ⟨s.seen .aof, passed, rfl⟩
  | _ => cases ha

theorem aofPc_of_other (h : Step s a s') (ha : a.thread ≠ some (.worker .aof)) :
    s'.daemon.aof.pc = s.daemon.aof.pc := by
  cases move_of_step h with
  | aof passed => exact absurd rfl ha
  | dump t ord => exact congrArg AofWorker.pc (Daemon.dumpStep_aof t ord s.daemon)
  | _ => rfl

theorem call_of_write {client : ℕ} {w : WriteCommand} {now : TimePoint}
    (h : Step s (.write client w now) s') :
    client ∉ s.calls ∧ client ∈ s'.calls ∧ s'.daemon.pending client = some w := by
  obtain ⟨hguard, h⟩ := Option.ite_none_right_eq_some.mp h
  cases h
  exact ⟨hguard.2, Finset.mem_insert_self .., Function.update_self ..⟩

theorem log_of_enqueue {client : ℕ} {w : WriteCommand} (h : Step s (.enqueue client) s')
    (hw : s.daemon.pending client = some w) :
    s'.daemon.aof.log = s.daemon.aof.log ++ (w.line ++ [newline]) := by
  obtain ⟨w', hw', h⟩ := Option.bind_eq_some_iff.mp h
  obtain rfl := Option.some.inj (hw.symm.trans hw')
  obtain ⟨-, h⟩ := Option.ite_none_right_eq_some.mp h
  cases h
  exact AofWorker.log_enqueueLine ..

theorem calls_of_destroy (h : Step s .destroy s') : s.calls = ∅ ∧ s'.calls = ∅ := by
  obtain ⟨hguard, h⟩ := Option.ite_none_right_eq_some.mp h
  cases h
  exact ⟨hguard.2, hguard.2⟩

theorem durable_of_step (h : Step s a s') : s.daemon.aof.durable <+: s'.daemon.aof.durable := by
  obtain heq | ⟨b, heq⟩ := aof_of_step h <;> rw [heq]
  exact AofWorker.durable_step _ b

/-- A call stays in progress until its line is enqueued. -/
theorem call_of_step {client : ℕ} {w : WriteCommand} (h : Step s a s') (ha : a ≠ .enqueue client)
    (hcall : client ∈ s.calls) (hw : s.daemon.pending client = some w) :
    client ∈ s'.calls ∧ s'.daemon.pending client = some w := by
  cases move_of_step h with
  | write c w' now =>
      have hne : client ≠ c := by
        rintro rfl
        exact (call_of_write h).1 hcall
      exact ⟨Finset.mem_insert_of_mem hcall, (Function.update_of_ne hne ..).trans hw⟩
  | enqueue c w' =>
      have hne : client ≠ c := by
        rintro rfl
        exact ha rfl
      exact ⟨Finset.mem_erase.mpr ⟨hne, hcall⟩, (Function.update_of_ne hne ..).trans hw⟩
  | dump t ord =>
      obtain ⟨_, _, _, _, hframe⟩ := s.daemon.dumpStep_frame t ord
      refine ⟨hcall, ?_⟩
      rw [hframe]
      exact hw
  | _ => exact ⟨hcall, hw⟩

/-- The calls in progress keep the destructor from being called. -/
structure InCalls (capacity : ℕ) (s : Process M) : Prop where
  tidy : s.daemon.aof.Tidy
  isOpen : s.destructor = .running → s.Open capacity
  running : ∀ client ∈ s.calls, s.destructor = .running

variable {capacity : ℕ}

theorem InCalls.start (capacity : ℕ) (clock : RecoveryClock) (snapshot aof : Bytes) :
    (start M capacity clock snapshot aof).InCalls capacity where
  tidy :=
    { idle := fun _ => ⟨rfl, rfl⟩
      leaving := fun _ => rfl }
  isOpen := fun _ => .start capacity clock snapshot aof
  running := by simp [Process.start]

theorem InCalls.step (I : s.InCalls capacity) (h : Step s a s') : s'.InCalls capacity := by
  refine ⟨?_, fun hrunning => (I.isOpen (running_of_step h hrunning)).step h hrunning, ?_⟩
  · cases move_of_step h with
    | enqueue client w hs => exact I.tidy.enqueueLine (I.isOpen hs).aof.1 w.line
    | requestAofRewrite | destroy => exact ⟨I.tidy.idle, I.tidy.leaving⟩
    | aof passed => exact I.tidy.work (s.seen .aof) passed
    | dump t ord => exact (Daemon.dumpStep_aof t ord s.daemon).symm ▸ I.tidy
    | _ => exact I.tidy
  · intro client hclient
    cases move_of_step h with
    | write _ _ _ hs | enqueue _ _ hs => exact hs
    | destroy => simp [(calls_of_destroy h).1] at hclient
    | joinAof hs | joinSnapshot hs | stopReaper hs | joinReaper hs =>
        simp [I.running client hclient] at hs
    | _ => exact I.running client hclient

/-! ## The thread comes round -/

section Fair
variable {ρ : Transition.Path (@Step M)} {text : Bytes}

/-- What the thread brings nearer with each of its steps, and nobody undoes, comes true. -/
theorem leadsTo_of_work (hfair : FairlyScheduled ρ) (hI : ∀ n, (ρ.state n).InCalls capacity)
    {P Q : AofWorker → Prop} (rank : AofPc → ℕ) (hstays : ∀ s, s.Tidy → P s → ¬ Q s → s.pc ≠ .exited)
    (hkeep : ∀ s b, P s → P (s.step b))
    (hnear : ∀ s seesStop passed, s.Tidy → P s → ¬ Q s → ¬ Q (s.work seesStop passed) →
      rank (s.work seesStop passed).pc < rank s.pc) :
    ρ.LeadsTo (fun s => P s.daemon.aof) fun s => Q s.daemon.aof := by
  have hround : ρ.LeadsTo (fun s => P s.daemon.aof ∧ ¬ Q s.daemon.aof) fun s => Q s.daemon.aof := by
    have hlater : ∀ {s s' : Process M} {a : ProcessAction M}, Step s a s' → P s.daemon.aof →
        P s'.daemon.aof := by
      intro s s' a h hP
      obtain heq | ⟨b, heq⟩ := aof_of_step h
      · rwa [heq]
      · rw [heq]
        exact hkeep _ b hP
    refine .of_rank (fun s => rank s.daemon.aof.pc) fun v => ?_
    refine .of_fair hI (hfair (.worker .aof)) ?_ ?_ ?_
    · rintro s I ⟨⟨hP, hQ⟩, -⟩
      exact hstays _ I.tidy hP hQ
    · rintro s a s' h - ⟨⟨hP, -⟩, hv⟩ ha
      by_cases hQ' : Q s'.daemon.aof
      · exact .inr (.inl hQ')
      · exact .inl ⟨⟨hlater h hP, hQ'⟩, (congrArg rank (aofPc_of_other h ha)).trans hv⟩
    · rintro s a s' h I ⟨⟨hP, hQ⟩, rfl⟩ ha
      by_cases hQ' : Q s'.daemon.aof
      · exact .inl hQ'
      · refine .inr ⟨⟨hlater h hP, hQ'⟩, ?_⟩
        obtain ⟨seesStop, passed, heq⟩ := aof_of_worker h ha
        rw [heq] at hQ' ⊢
        exact hnear _ seesStop passed I.tidy hP hQ hQ'
  intro n hn
  by_cases hQ : Q (ρ.state n).daemon.aof
  · exact ⟨n, le_rfl, hQ⟩
  · exact hround n ⟨hn, hQ⟩

/-- What was put into the queue is taken out of it. -/
theorem leadsTo_drained (hfair : FairlyScheduled ρ) (hI : ∀ n, (ρ.state n).InCalls capacity) :
    ρ.LeadsTo (fun s => text <+: s.daemon.aof.log) fun s => text <+: s.daemon.aof.drained := by
  refine leadsTo_of_work (P := fun s => text <+: s.log) (Q := fun s => text <+: s.drained) hfair hI
    AofWorker.awaitsDrain ?_ ?_ ?_
  · intro s T hlog hdrained hexited
    rw [AofWorker.log, T.leaving (.inr hexited), aofText_nil, List.append_nil] at hlog
    exact hdrained hlog
  · intro s b hlog
    exact hlog.trans (s.log_step b)
  · intro s seesStop passed T
    exact AofWorker.awaitsDrain_work seesStop passed T

/-- What was taken out of the queue reaches the file. -/
theorem leadsTo_durable (hfair : FairlyScheduled ρ) (hI : ∀ n, (ρ.state n).InCalls capacity) :
    ρ.LeadsTo (fun s => text <+: s.daemon.aof.drained) fun s => text <+: s.daemon.aof.durable := by
  refine leadsTo_of_work (P := fun s => text <+: s.drained) (Q := fun s => text <+: s.durable) hfair hI
    AofWorker.awaitsFlush ?_ ?_ ?_
  · intro s T hdrained hdurable hexited
    exact hdurable (T.durable_eq (by simp [hexited]) ▸ hdrained)
  · intro s b hdrained
    exact hdrained.trans (s.drained_step b)
  · intro s seesStop passed T
    exact AofWorker.awaitsFlush_work seesStop passed T

/-- **Every write becomes durable.** Take an infinite run of the process in which the scheduler passes
over no thread and no client in the middle of a call. The client of a write that has taken effect comes to
put its line into the queue, and from some time on the line is in the file, or in what a rewrite has cut
off it, right behind everything that had been enqueued before. -/
theorem write_becomes_durable {clock : RecoveryClock} {snapshot aof : Bytes}
    (h₀ : ρ.state 0 = start M capacity clock snapshot aof) (hfair : FairlyScheduled ρ)
    (hclients : ∀ client, ρ.Fair (fun s => client ∈ s.calls) (· = .enqueue client)) {n client : ℕ}
    {w : WriteCommand} {now : TimePoint} (hn : ρ.action n = .write client w now) :
    ∃ k > n, (ρ.action k = .enqueue client ∧ ∀ i > n, i < k → ρ.action i ≠ .enqueue client) ∧
      ∃ m > k, ∀ l ≥ m,
        (ρ.state k).daemon.aof.log ++ (w.line ++ [newline]) <+: (ρ.state l).daemon.aof.durable := by
  have hI : ∀ k, (ρ.state k).InCalls capacity := by
    intro k
    have hrun := ρ.run k
    rw [h₀] at hrun
    exact hrun.invariant (fun _ _ _ h I => I.step h) (.start capacity clock snapshot aof)
  have hwrite : Step (ρ.state n) (.write client w now) (ρ.state (n + 1)) := hn ▸ ρ.step n
  obtain ⟨k, hk, henqueue, ⟨-, hw⟩, hfirst⟩ := (hclients client).exists_first hI
    (P := fun s => client ∈ s.calls ∧ s.daemon.pending client = some w)
    (fun _ _ hP => hP.1) (fun _ _ _ h _ hP ha => call_of_step h ha hP.1 hP.2)
    (call_of_write hwrite).2
  refine ⟨k, hk, ⟨henqueue, hfirst⟩, ?_⟩
  have hlog := log_of_enqueue (henqueue ▸ ρ.step k) hw
  obtain ⟨j, hj, hdrained⟩ := leadsTo_drained hfair hI (k + 1) List.prefix_rfl
  rw [hlog] at hdrained
  obtain ⟨m, hm, hdurable⟩ := leadsTo_durable hfair hI j hdrained
  refine ⟨m, hj.trans hm, ?_⟩
  intro l hl
  induction l, hl using Nat.le_induction with
  | base => exact hdurable
  | succ l hl ih => exact ih.trans (durable_of_step (ρ.step l))

end Fair

/-- A line is on its way to the file. -/
private def deleteOne : List (ProcessAction Platform.oneShard) :=
  [.write 1 (.del (ascii "k")) 1, .enqueue 1, .aof 0, .aof 0]

/-- The destructor is called as soon as the next line is in the queue. -/
private def endAtOnce : List (ProcessAction Platform.oneShard) :=
  .enqueue 0 :: .destroy :: .propagate .aof :: List.replicate 7 (.aof 0) ++
    .propagate .snapshot :: List.replicate 69 (.snapshot ⟨3, 3⟩ .stored) ++
    [.destructor, .destructor, .destructor, .propagate .reaper, .reaper 4, .destructor]

/-- A set while the thread writes another line. -/
theorem write_becomes_durable_lastBatch :
    ∃ (ρ : Transition.Path (@Step Platform.oneShard)) (n m : ℕ),
      ρ.action n = .write 0 (.set (ascii "k") (ascii "v") none) 2 ∧
      (ρ.state n).daemon.aof.pc = .write false [ascii "DEL k"] ∧
      ∀ l ≥ m, ∃ earlier, earlier ++ ascii "SET k v\n" <+: (ρ.state l).daemon.aof.durable := by
  let s₀ : Process Platform.oneShard := start Platform.oneShard 64 ⟨fun _ => 0, fun _ => 0⟩ [] []
  let set : ProcessAction Platform.oneShard := .write 0 (.set (ascii "k") (ascii "v") none) 2
  have hbefore : (Transition.exec step deleteOne s₀).map
      (fun s => decide (s.daemon.aof.pc = .write false [ascii "DEL k"])) = some true := by
    decide +kernel
  have hafter : (((Transition.exec step deleteOne s₀).bind (step set)).bind
      (Transition.exec step endAtOnce)).map (fun s => decide (s.AtRest ∧ s.calls = ∅)) =
        some true := by decide +kernel
  obtain ⟨s, hs, hpc⟩ := Option.map_eq_some_iff.mp hbefore
  obtain ⟨t, ht, hend⟩ := Option.map_eq_some_iff.mp hafter
  rw [hs, Option.bind_some] at ht
  obtain ⟨s₁, hwrite, ht⟩ := Option.bind_eq_some_iff.mp ht
  obtain ⟨hrest, hcalls⟩ := of_decide_eq_true hend
  obtain ⟨ρ₁, hs₁, hquiet⟩ := Transition.Path.exists_of_run (Transition.run_of_exec ht)
    (.const (step_other t)) rfl
  subst hs₁
  obtain ⟨ρ, hs₀, hlater⟩ := Transition.Path.exists_of_run (Transition.run_of_exec hs)
    (ρ₁.cons hwrite) rfl
  have hlast : ∀ n, ∃ m ≥ n, ρ.state m = t := by
    intro n
    refine ⟨n + endAtOnce.length + 1 + deleteOne.length, by omega, ?_⟩
    rw [(hlater _).1]
    exact (hquiet n).1
  have hfair : FairlyScheduled ρ := by
    intro thread n hready
    obtain ⟨m, hm, heq⟩ := hlast n
    exact absurd (heq ▸ hready m hm) (not_ready hrest thread)
  have hclients : ∀ client, ρ.Fair (fun s => client ∈ s.calls) (· = .enqueue client) := by
    intro client n hready
    obtain ⟨m, hm, heq⟩ := hlast n
    have hcall := hready m hm
    simp [heq, hcalls] at hcall
  obtain ⟨k, -, -, m, -, hdurable⟩ := write_becomes_durable hs₀ hfair hclients (hlater 0).2
  refine ⟨ρ, 0 + deleteOne.length, m, (hlater 0).2, ?_, fun l hl => ⟨_, hdurable l hl⟩⟩
  rw [(hlater 0).1]
  exact of_decide_eq_true hpc

end Process
end MiniRedis
