import MiniRedis.Concurrency.Agreement
import MiniRedis.Lib.Fairness

/-!
# Every call returns

Nobody waits in a circle: a thread waits only for the owner of a record, and an owner never waits.
So in every infinite run in which threads that can step do so at some time, no thread starves at a
mutex and loaders come back, each call returns, after a number of its own steps that depends only on
the number of shards. A critical section and the locking of its mutex are one step here. That the
mutex is free between steps does not give it to a thread that waits for it, so that this happens at
some time is an assumption of its own: the standard does not promise it for `std::shared_mutex`.
-/
namespace MiniRedis
variable {Key Value Exn : Type} [DecidableEq Key] {P : CacheParams Key Value}

/-- At most so many steps of its own lie between a thread and the return of its call. -/
def Pc.toGo (P : CacheParams Key Value) : Pc Key Value Exn → ℕ
  | .idle | .broken | .done .. => 0
  | .getSample .. => 9
  | .getShared .. => 8
  | .getExclusive .. => 7
  | .recheck .. => 6
  | .registered .. => 5
  | .loading .. => 4
  | .loaded .. => 3
  | .stored .. | .threw .. => 2
  | .completed .. | .waiting .. | .set .. | .del .. => 1
  | .cleanupSample | .countSample => P.numShards + 2
  | .cleanup _ i | .count _ i _ => P.numShards - i + 1

/-- The thread's next step begins with the locking of a shard's mutex. -/
def Pc.Locks (P : CacheParams Key Value) : Pc Key Value Exn → Prop
  | .getShared .. | .getExclusive .. | .set .. | .del .. | .recheck .. | .loaded ..
  | .completed .. => True
  | .cleanup _ i | .count _ i _ => i < P.numShards
  | _ => False

namespace System
variable {maxKeys : ℕ} {s s₁ s' : System P Exn} {pc pc' : Pc Key Value Exn} {t : ℕ}

/-- The call of thread `t` has returned. -/
def Returned (t : ℕ) (s : System P Exn) : Prop :=
  ∃ result source, s.threads t = .done result source

/-- Thread `t` can step, or is in its loader. -/
def Ready (t : ℕ) (s : System P Exn) : Prop :=
  (s.runThread t).isSome ∨ ∃ k ttl r, s.threads t = .loading k ttl r

/-- A move brings a call nearer to its return. -/
theorem Move.toGo_lt (h : Move s pc s₁ pc') (hpc : 0 < pc.toGo P) :
    pc'.toGo P < pc.toGo P := by
  cases h with
  | sharedMiss caller | exclusiveMiss caller | exclusiveExpired caller | exclusiveHit caller =>
      cases caller <;> simp [Pc.toGo, Caller.missed, Caller.found]
  | complete k r out hpending hopen =>
      cases pc <;> simp [Pc.pending] at hpending <;> simp [Pc.toGo]
  | cleanup now i hi | count now i total hi =>
      simp only [Pc.toGo]
      omega
  | broken => exact hpc
  | call | leave => simp [Pc.toGo] at hpc
  | _ => simp [Pc.toGo]

/-- A call does not end before it has returned. -/
theorem Move.ne_idle (h : Move s pc s₁ pc') (hpc : 0 < pc.toGo P) : pc' ≠ .idle := by
  cases h with
  | sharedMiss caller | exclusiveMiss caller | exclusiveExpired caller | exclusiveHit caller =>
      cases caller <;> simp [Caller.missed, Caller.found]
  | call | leave => simp [Pc.toGo] at hpc
  | _ => simp

/-- Only a thread that waits for a promise may have to wait. -/
theorem ready_of_busy (hbusy : 0 < (s.threads t).toGo P)
    (hwait : ∀ k r, s.threads t ≠ .waiting k r) : s.Ready t := by
  unfold Ready runThread
  cases hpc : s.threads t with
  | idle | broken | done => simp [Pc.toGo, hpc] at hbusy
  | waiting k r => exact absurd hpc (hwait k r)
  | loading k ttl r => exact .inr ⟨k, ttl, r, rfl⟩
  | recheck k ttl =>
      dsimp only
      split <;> exact .inl rfl
  | cleanup now i | count now i total =>
      dsimp only
      split <;> exact .inl rfl
  | _ => exact .inl rfl

/-- An owner moves on, and has published its outcome or is still at work. -/
theorem Move.of_working {k : Key} {r : RecordId} (h : Move s pc s₁ pc')
    (hrole : pc.role = .working k r) :
    pc' = .broken ∨ (∃ out, s₁.promises r = some out) ∨ pc'.role = .working k r := by
  cases h with
  | complete k' r' out hpending hopen =>
      rw [role_of_pending hpending] at hrole
      cases hrole
      exact .inr (.inl ⟨out, Function.update_self ..⟩)
  | broken => exact .inl rfl
  | load | loaderReturn | loaderThrow | loaded => exact .inr (.inr hrole)
  | _ => cases hrole

omit [DecidableEq Key] in
theorem toGo_of_working {k : Key} {r : RecordId} (hrole : pc.role = .working k r) :
    0 < pc.toGo P ∧ ∀ k r, pc ≠ .waiting k r := by
  cases pc <;> simp [Pc.role] at hrole <;> simp [Pc.toGo]

theorem step_of_working {a : Action Key Value Exn} {k : Key} {r : RecordId} (h : Step s a s')
    (hs : s.InFlightSound maxKeys) (ha : a.thread = some t)
    (hrole : (s.threads t).role = .working k r) :
    (∃ out, s'.promises r = some out) ∨
      (s'.threads t).role = .working k r ∧ (s'.threads t).toGo P < (s.threads t).toGo P := by
  rcases step_cases h with ⟨now, rfl, -, -⟩ | ⟨u, s₁, pc', hu, hmove, rfl⟩
  · cases ha
  · obtain rfl : u = t := Option.some.inj (hu.symm.trans ha)
    rw [threads_self_setPc, promises_setPc]
    rcases hmove.of_working hrole with hbroken | hout | hrole'
    · exact absurd hbroken (hmove.ne_broken hs.sound)
    · exact .inl hout
    · exact .inr ⟨hrole', hmove.toGo_lt (toGo_of_working hrole).1⟩

/-- A step of the thread itself brings it nearer to its return. -/
theorem step_of_busy {a : Action Key Value Exn} (h : Step s a s') (ha : a.thread = some t)
    (hbusy : 0 < (s.threads t).toGo P) :
    s'.threads t ≠ .idle ∧ (s'.threads t).toGo P < (s.threads t).toGo P := by
  rcases step_cases h with ⟨now, rfl, -, -⟩ | ⟨u, s₁, pc', hu, hmove, rfl⟩
  · cases ha
  · obtain rfl : u = t := Option.some.inj (hu.symm.trans ha)
    rw [threads_self_setPc]
    exact ⟨hmove.ne_idle hbusy, hmove.toGo_lt hbusy⟩

/-- Only a promise keeps a waiting thread from returning. -/
theorem step_of_waiting {a : Action Key Value Exn} {k : Key} {r : RecordId} (h : Step s a s')
    (hwait : s.threads t = .waiting k r) :
    s'.threads t = .waiting k r ∨ Returned t s' := by
  by_cases ha : a.thread = some t
  · rcases step_cases h with ⟨now, rfl, -, -⟩ | ⟨u, s₁, pc', hu, hmove, rfl⟩
    · cases ha
    · obtain rfl : u = t := Option.some.inj (hu.symm.trans ha)
      rw [hwait] at hmove
      cases hmove with
      | wake k r out hout => exact .inr ⟨_, _, threads_self_setPc ..⟩
      | complete k r out hpending => cases hpending
      | broken k r out out' hpending => cases hpending
  · exact .inl ((threads_of_other h ha).trans hwait)

/-! ## Fair runs -/

section Fair
variable {ρ : Transition.Path (@Step Key Value Exn P _)}

/-- What the calls rely on. -/
structure FairlyScheduled (ρ : Transition.Path (@Step Key Value Exn P _)) : Prop where
  /-- The scheduler runs every thread that can step without a mutex. -/
  scheduled : ∀ t, ρ.Fair (fun s => (s.runThread t).isSome ∧ ¬ (s.threads t).Locks P)
    fun a => a.thread = some t
  /-- The mutexes are free of starvation: whoever waits for one gets it at some time. -/
  starvationFree : ∀ t, ρ.Fair (fun s => (s.threads t).Locks P) fun a => a.thread = some t
  /-- Loaders come back. -/
  loaders : ∀ t, ρ.Fair (fun s => ∃ k ttl r, s.threads t = .loading k ttl r)
    fun a => a.thread = some t

/-- A thread that is ready steps at some time: until it does, it stays where it is. -/
theorem FairlyScheduled.fair (h : FairlyScheduled ρ) (t : ℕ) :
    ρ.Fair (Ready t) fun a => a.thread = some t := by
  intro n hready
  by_contra hnever
  have hstays : ∀ m ≥ n, (ρ.state m).threads t = (ρ.state n).threads t := by
    intro m hm
    induction m, hm using Nat.le_induction with
    | base => rfl
    | succ m hm ih =>
        exact (threads_of_other (ρ.step m) fun ha => hnever ⟨m, hm, ha⟩).trans ih
  have hlasts : ∀ {Q : Pc Key Value Exn → Prop}, Q ((ρ.state n).threads t) →
      ∀ m ≥ n, Q ((ρ.state m).threads t) := by
    intro Q hQ m hm
    rwa [hstays m hm]
  by_cases hloading : ∃ k ttl r, (ρ.state n).threads t = .loading k ttl r
  · exact hnever (h.loaders t n (hlasts (Q := fun pc => ∃ k ttl r, pc = .loading k ttl r) hloading))
  by_cases hlocks : ((ρ.state n).threads t).Locks P
  · exact hnever (h.starvationFree t n (hlasts hlocks))
  · refine hnever (h.scheduled t n fun m hm => ⟨(hready m hm).resolve_right ?_, ?_⟩)
    · rwa [hstays m hm]
    · rwa [hstays m hm]

/-- A thread at work takes its next step. -/
theorem leadsTo_of_busy (hfair : FairlyScheduled ρ)
    (hsound : ∀ n, (ρ.state n).InFlightSound maxKeys) {Q : System P Exn → Prop}
    (hbusy : 0 < pc.toGo P) (hwait : ∀ k r, pc ≠ .waiting k r)
    (hact : ∀ s a s', Step s a s' → s.InFlightSound maxKeys → s.threads t = pc →
      a.thread = some t → Q s') :
    ρ.LeadsTo (fun s => s.threads t = pc) Q := by
  refine .of_fair hsound (hfair.fair t) ?_ ?_ hact
  · rintro s - rfl
    exact ready_of_busy hbusy hwait
  · intro s a s' hstep _ hpc ha
    exact .inl ((threads_of_other hstep ha).trans hpc)

/-- An owner completes the promise of its record. -/
theorem leadsTo_of_working (hfair : FairlyScheduled ρ)
    (hsound : ∀ n, (ρ.state n).InFlightSound maxKeys) (k : Key) (r : RecordId) :
    ρ.LeadsTo (fun s => (s.threads t).role = .working k r) fun s => ∃ out, s.promises r = some out := by
  refine .of_rank (fun s => (s.threads t).toGo P) ?_
  rintro v n ⟨hrole, rfl⟩
  obtain ⟨hbusy, hwait⟩ := toGo_of_working (P := P) hrole
  refine leadsTo_of_busy (Q := fun s => (∃ out, s.promises r = some out) ∨
    (s.threads t).role = .working k r ∧ (s.threads t).toGo P < _) hfair hsound hbusy hwait ?_ n rfl
  intro s a s' hstep hs hpc ha
  rw [← hpc] at hrole ⊢
  exact step_of_working hstep hs ha hrole

/-- Who waits for a record gets its outcome. -/
theorem leadsTo_of_waiting (hfair : FairlyScheduled ρ)
    (hsound : ∀ n, (ρ.state n).InFlightSound maxKeys) (k : Key) (r : RecordId) :
    ρ.LeadsTo (fun s => s.threads t = .waiting k r) (Returned t) := by
  have hserved : ρ.LeadsTo (fun s => s.threads t = .waiting k r)
      fun s => ∃ out, s.promises r = some out := by
    intro n hwait
    have hrole : (ρ.state n).board.role t = .waiting r := congrArg Pc.role hwait
    rcases (hsound n).sound.waiting_served t r hrole with hout | ⟨t', k', hrole'⟩
    · exact ⟨n, le_rfl, hout⟩
    · exact leadsTo_of_working hfair hsound k' r n hrole'
  have hkeep : ∀ (s : System P Exn) (a : Action Key Value Exn) (s' : System P Exn), Step s a s' →
      s.InFlightSound maxKeys → s.threads t = .waiting k r →
        s'.threads t = .waiting k r ∨ Returned t s' :=
    fun _ _ _ hstep _ hwait => step_of_waiting hstep hwait
  refine (hserved.until hsound hkeep).trans_or (.of_fair hsound (hfair.fair t) ?_ ?_ ?_)
  · rintro s - ⟨hwait, out, hout⟩
    exact .inl (by simp [runThread, hwait, hout])
  · rintro s a s' hstep hs ⟨hwait, out, hout⟩ -
    refine (step_of_waiting hstep hwait).imp_left fun hwait' => ⟨hwait', out, ?_⟩
    exact promise_stable (.cons hstep (.nil s')) hs hout
  · rintro s a s' hstep hs ⟨hwait, -⟩ ha
    refine (step_of_waiting hstep hwait).resolve_left ?_
    intro hwait'
    have hlt := (step_of_busy hstep ha (by simp [hwait, Pc.toGo])).2
    simp [hwait, hwait', Pc.toGo] at hlt

theorem sound_of_start {now : TimePoint} (h₀ : ρ.state 0 = init P Exn maxKeys now) (n : ℕ) :
    (ρ.state n).InFlightSound maxKeys := by
  have hrun := ρ.run n
  rw [h₀] at hrun
  exact Reachable.inFlightSound ⟨now, _, hrun⟩

/-- A thread in a call either still has a way to go or has returned. -/
theorem busy_or_returned (hs : s.InFlightSound maxKeys) (hin : s.threads t ≠ .idle) :
    0 < (s.threads t).toGo P ∨ Returned t s := by
  cases hpc : s.threads t with
  | idle => exact absurd hpc hin
  | broken => exact absurd hpc (hs.unbroken t)
  | done result source => exact .inr ⟨result, source, hpc⟩
  | _ => simp [Pc.toGo]

omit [DecidableEq Key] in
theorem toGo_le (pc : Pc Key Value Exn) : pc.toGo P ≤ P.numShards + 9 := by
  cases pc <;> simp only [Pc.toGo] <;> omega

/-- **Every call returns.** Take an infinite run of the cache in which the scheduler passes over no
thread that stays able to step, no thread starves at a mutex and every loader comes back. Each call
in progress at some time has returned at a later one: there is no deadlock and no thread waits for a
record that is never completed. Before it returns the call takes at most nine steps of its own and
one for each shard. -/
theorem calls_return {now : TimePoint} (h₀ : ρ.state 0 = init P Exn maxKeys now)
    (hfair : FairlyScheduled ρ) (t : ℕ) :
    ρ.LeadsTo (fun s => s.threads t ≠ .idle) (Returned t) ∧
      ∀ n m, n ≤ m →
        (∀ i, n ≤ i → i < m → (ρ.state i).threads t ≠ .idle ∧ ¬ Returned t (ρ.state i)) →
        ((Finset.Ico n m).filter fun i => (ρ.action i).thread = some t).card ≤
          P.numShards + 9 := by
  have hsound := sound_of_start h₀
  refine ⟨.of_rank (fun s => (s.threads t).toGo P) ?_, ?_⟩
  · rintro v n ⟨hin, rfl⟩
    rcases busy_or_returned (hsound n) hin with hbusy | hreturned
    · by_cases hwait : ∃ k r, (ρ.state n).threads t = .waiting k r
      · obtain ⟨k, r, hpc⟩ := hwait
        obtain ⟨m, hm, hreturned⟩ := leadsTo_of_waiting hfair hsound k r n hpc
        exact ⟨m, hm, .inl hreturned⟩
      · push Not at hwait
        refine leadsTo_of_busy (Q := fun s => Returned t s ∨
          s.threads t ≠ .idle ∧ (s.threads t).toGo P < _) hfair hsound hbusy hwait ?_ n rfl
        intro s a s' hstep hs hpc ha
        rw [← hpc] at hbusy ⊢
        exact .inr (step_of_busy hstep ha hbusy)
    · exact ⟨n, le_rfl, .inl hreturned⟩
  · intro n m hnm hcall
    have hcount := Transition.Path.card_add_rank_le (p := fun a => a.thread = some t)
      (P := fun s => s.threads t ≠ .idle ∧ ¬ Returned t s) hsound (fun s => (s.threads t).toGo P)
      (fun s a s' hstep hs hP ha =>
        (step_of_busy hstep ha ((busy_or_returned hs hP.1).resolve_right hP.2)).2)
      (fun s a s' hstep _ _ ha => (congrArg (Pc.toGo P) (threads_of_other hstep ha)).le) hnm hcall
    have hle := toGo_le (P := P) ((ρ.state n).threads t)
    omega

end Fair

/-- One thread stores a key; then only time passes. -/
private def restful : ℕ → System CacheParams.twoShards Unit
  | 0 => init CacheParams.twoShards Unit 2 0
  | 1 => (restful 0).setPc 0 (.set 1 5 none)
  | 2 => ((restful 1).store 1 5 none none).2.setPc 0 (.done (.stored true) none)
  | 3 => (restful 2).setPc 0 .idle
  | n + 4 => restful (n + 3)

private def restfulAction : ℕ → Action ℕ ℕ Unit
  | 0 => .call 0 (.set 1 5 none)
  | 1 | 2 => .run 0
  | _ => .tick 0

private theorem restful_add (n : ℕ) : restful (n + 3) = restful 3 := by
  induction n with
  | zero => rfl
  | succ n ih => exact ih

private def restfulPath : Transition.Path (@Step ℕ ℕ Unit CacheParams.twoShards _) where
  state := restful
  action := restfulAction
  step
    | 0 => rfl
    | 1 => rfl
    | 2 => rfl
    | n + 3 => by
        have hstate : restful (n + 4) = restful 3 := restful_add (n + 1)
        rw [hstate, restful_add n]
        rfl

private theorem restful_late (t n : ℕ) : (restfulPath.state (n + 3)).threads t = .idle := by
  change (restful (n + 3)).threads t = .idle
  rw [restful_add]
  by_cases ht : t = 0
  · subst ht
    rfl
  · simp [restful, threads_setPc, ht, store, init]

private theorem fairlyScheduled_restfulPath : FairlyScheduled restfulPath := by
  constructor
  case scheduled =>
    intro t n hready
    have hlate := hready (n + 3) (by omega)
    simp [runThread, restful_late] at hlate
  case starvationFree =>
    intro t n hready
    have hlate := hready (n + 3) (by omega)
    simp [restful_late, Pc.Locks] at hlate
  case loaders =>
    intro t n hready
    have hlate := hready (n + 3) (by omega)
    simp [restful_late] at hlate

theorem calls_return_restful :
    (∃ m ≥ 1, Returned 0 (restful m)) ∧ (restful 1).threads 0 ≠ .idle := by
  have hcalled : (restful 1).threads 0 ≠ .idle := by decide
  exact ⟨(calls_return (P := CacheParams.twoShards) (ρ := restfulPath) rfl
    fairlyScheduled_restfulPath 0).1 1 hcalled, hcalled⟩

end System
end MiniRedis
