import MiniRedis.Cache.Lists
import MiniRedis.Concurrency.Invariants

/-!
# How lookups are counted

A `get` counts a hit or a miss exactly once, in the section that decides what it returns. A
`get_or_compute` begins with a `get`, and when that has missed it looks the key up a second time; if
the key is there by now it counts a hit on top of the miss. So the statistics add up to the number
of lookups if and only if no second lookup of a `get_or_compute` ever hits.
-/
namespace MiniRedis
variable {Key Value Exn : Type}

/-- A `get_or_compute` that has been counted as a miss and has not returned. -/
def Pc.missed : Pc Key Value Exn → Bool
  | .recheck .. | .registered .. | .loading .. | .loaded .. | .stored .. | .threw .. => true
  | .completed .. | .waiting .. | .broken => true
  | _ => false

/-- A lookup of the key in the cache comes next. -/
def Pc.looking : Pc Key Value Exn → Bool
  | .getExclusive .. | .recheck .. => true
  | _ => false

/-- If a thread that goes from `pc` to another place returns from `get` or `get_or_compute`: was the
value in the cache? -/
def Pc.answer (pc : Pc Key Value Exn) : Pc Key Value Exn → Option Bool
  | .done (.got value) _ => some value.isSome
  | .done (.computed _) _ => some pc.looking
  | _ => none

variable [DecidableEq Key] {P : CacheParams Key Value} {maxKeys : ℕ}

namespace System

/-- A step with which a `get` or `get_or_compute` returns, with a value from the cache or without
one. -/
def answered (cached : Bool) (s : System P Exn) (a : Action Key Value Exn) (s' : System P Exn) :
    Bool :=
  a.thread.any fun t => (s.threads t).answer (s'.threads t) == some cached

/-- The second lookup of a `get_or_compute` at this place would hit. -/
def hitsAgain (s : System P Exn) : Pc Key Value Exn → Bool
  | .recheck key _ => (s.entry key).any fun e => !isExpired e s.clock
  | _ => false

/-- A step that is the second lookup of a `get_or_compute`, and hits. -/
def recheckHits (s : System P Exn) (a : Action Key Value Exn) (_ : System P Exn) : Bool :=
  a.thread.any fun t => s.hitsAgain (s.threads t)

/-- No call is in progress. -/
def Quiet (s : System P Exn) : Prop :=
  ∀ t, s.threads t = .idle ∨ ∃ result source, s.threads t = .done result source

/-- What is counted is one hit for each lookup that returned a cached value and one miss for each
that did not. -/
def CountedOnce (start : System P Exn) (as : List (Action Key Value Exn)) (s : System P Exn) :
    Prop :=
  s.cache.counters.hits = Transition.occurrences step (answered true) as start ∧
    s.cache.counters.misses = Transition.occurrences step (answered false) as start

/-! ## What one move counts -/

omit [DecidableEq Key] in
@[simp] theorem answer_start (pc : Pc Key Value Exn) (c : Call Key Value) :
    pc.answer c.start = none := by
  cases c <;> rfl

omit [DecidableEq Key] in
theorem answer_found (pc : Pc Key Value Exn) (hpc : pc.looking = true) (caller : Caller) (v : Value)
    (source : Option (Load Key)) :
    pc.answer (caller.found v source) = some true ∧
      (caller.found v source : Pc Key Value Exn).missed = false := by
  cases caller
  · exact ⟨rfl, rfl⟩
  · exact ⟨congrArg some hpc, rfl⟩

/-- A second lookup that finds nothing does not hit. -/
theorem hitsAgain_of_purged {s : System P Exn} {k : Key} {l : Locked Key Value}
    (h : s.Purged k s.clock l) (ttl : Option Millis) : s.hitsAgain (.recheck k ttl) = false := by
  rcases h with ⟨hk, -⟩ | ⟨e, hk, hexp, -⟩
  · simp [hitsAgain, hk]
  · simp [hitsAgain, hk, hexp]

theorem counters_purged {s : System P Exn} {k : Key} {now : TimePoint}
    {l : Locked Key Value} (h : s.Purged k now l) :
    l.counters.hits = s.cache.counters.hits ∧ l.counters.misses = s.cache.counters.misses := by
  rcases h with ⟨-, rfl⟩ | ⟨e, -, -, rfl⟩ <;> exact ⟨rfl, rfl⟩

namespace Move
variable {s s₁ : System P Exn} {pc pc' : Pc Key Value Exn}

/-- A move counts a hit if it returns a cached value. -/
theorem hits_eq (h : Move s pc s₁ pc') (R : ∃ xs, s.cache.Rep xs) :
    s₁.cache.counters.hits =
      s.cache.counters.hits + (pc.answer pc' == some true).toNat := by
  obtain ⟨xs, R⟩ := R
  cases h with
  | call c => simp
  | sharedMiss caller k now hk | exclusiveMiss caller k now hk =>
      cases caller <;> rfl
  | exclusiveExpired caller k now e he hexp => cases caller <;> rfl
  | exclusiveHit caller k now e he hlive =>
      rw [(answer_found (.getExclusive caller k now) rfl caller _ _).1]
      rfl
  | set k v ttl => exact (R.lookups_set k v ttl s.clock).1
  | loaded k ttl r v => exact (R.lookups_set k v ttl s.clock).1
  | recheckJoin k ttl l r hl hr => exact (counters_purged hl).1
  | recheckOwn k ttl l hl hfree => exact (counters_purged hl).1
  | cleanup now i hi => exact (R.lookups_cleanupShard now ⟨i, hi⟩).1
  | _ => rfl

/-- A move counts a miss if it returns no cached value, or goes on to load or wait; a second lookup
that hits leaves the miss counted. -/
theorem misses_eq (h : Move s pc s₁ pc') (R : ∃ xs, s.cache.Rep xs) :
    s₁.cache.counters.misses + pc.missed.toNat =
      s.cache.counters.misses + pc'.missed.toNat +
        ((pc.answer pc' == some false).toNat + (s.hitsAgain pc).toNat) := by
  obtain ⟨xs, R⟩ := R
  cases h with
  | call c => cases c <;> rfl
  | sharedMiss caller k now hk | exclusiveMiss caller k now hk =>
      cases caller <;> rfl
  | exclusiveExpired caller k now e he hexp => cases caller <;> rfl
  | exclusiveHit caller k now e he hlive =>
      obtain ⟨hanswer, hmissed⟩ := answer_found (.getExclusive caller k now) rfl caller e.value
        (s.source k)
      rw [hanswer, hmissed]
      rfl
  | set k v ttl => exact congrArg (· + 0) (R.lookups_set k v ttl s.clock).2
  | loaded k ttl r v => exact congrArg (· + 1) (R.lookups_set k v ttl s.clock).2
  | recheckHit k ttl e he hlive =>
      have hagain : s.hitsAgain (.recheck k ttl) = true := by simp [hitsAgain, he, hlive]
      rw [hagain]
      rfl
  | recheckJoin k ttl l r hl hr =>
      rw [hitsAgain_of_purged hl]
      exact congrArg (· + 1) (counters_purged hl).2
  | recheckOwn k ttl l hl hfree =>
      rw [hitsAgain_of_purged hl]
      exact congrArg (· + 1) (counters_purged hl).2
  | complete k r out hpc hopen => cases pc <;> first | rfl | cases hpc
  | broken k r out out' hpc hdone => cases pc <;> first | rfl | cases hpc
  | cleanup now i hi => exact congrArg (· + 0) (R.lookups_cleanupShard now ⟨i, hi⟩).2
  | _ => rfl

end Move

/-! ## What a run counts -/

/-- How many calls of `threads` are counted as misses and have not returned. -/
def missedCalls (threads : Finset ℕ) (s : System P Exn) : ℕ :=
  ∑ t ∈ threads, (s.threads t).missed.toNat

omit [DecidableEq Key] in
theorem missedCalls_setPc {threads : Finset ℕ} {t : ℕ} (ht : t ∈ threads) (pc : Pc Key Value Exn)
    (s : System P Exn) :
    (s.setPc t pc).missedCalls threads + (s.threads t).missed.toNat =
      s.missedCalls threads + pc.missed.toNat := by
  have hrest : ∑ u ∈ threads.erase t, ((s.setPc t pc).threads u).missed.toNat =
      ∑ u ∈ threads.erase t, (s.threads u).missed.toNat := by
    refine Finset.sum_congr rfl fun u hu => ?_
    rw [threads_setPc, if_neg (Finset.ne_of_mem_erase hu)]
  simp only [missedCalls]
  rw [← Finset.add_sum_erase _ _ ht, ← Finset.add_sum_erase _ _ ht, hrest, threads_self_setPc]
  omega

theorem hits_step {s s' : System P Exn} {a : Action Key Value Exn} (h : Step s a s')
    (R : ∃ xs, s.cache.Rep xs) :
    s'.cache.counters.hits = s.cache.counters.hits + (answered true s a s').toNat := by
  rcases step_cases h with ⟨now, rfl, -, rfl⟩ | ⟨t, s₁, pc', ha, hmove, rfl⟩
  · rfl
  · have hhits := hmove.hits_eq R
    simpa [answered, ha] using hhits

theorem misses_step {s s' : System P Exn} {a : Action Key Value Exn} (h : Step s a s')
    (R : ∃ xs, s.cache.Rep xs) {threads : Finset ℕ} (hthreads : ∀ t ∈ a.thread, t ∈ threads) :
    s'.cache.counters.misses + s.missedCalls threads =
      s.cache.counters.misses + s'.missedCalls threads +
        ((answered false s a s').toNat + (recheckHits s a s').toNat) := by
  rcases step_cases h with ⟨now, rfl, -, rfl⟩ | ⟨t, s₁, pc', ha, hmove, rfl⟩
  · rfl
  · have hmisses := hmove.misses_eq R
    have hcalls := missedCalls_setPc (hthreads t ha) pc' s₁
    have hbefore : s₁.missedCalls threads = s.missedCalls threads := by
      simp only [missedCalls, hmove.threads_eq]
    rw [hbefore, hmove.threads_eq] at hcalls
    simp only [answered, recheckHits, ha, Option.any_some, threads_self_setPc,
      cache_setPc]
    omega

/-- Whatever the interleaving: each lookup that returned a cached value is one hit, each other one
is one miss, and so is each second lookup that hit. -/
theorem lookups_of_run {now : TimePoint} {as : List (Action Key Value Exn)} {s : System P Exn}
    (hrun : Transition.Run Step (init P Exn maxKeys now) as s) (hquiet : s.Quiet) :
    s.cache.counters.hits =
        Transition.occurrences step (answered true) as (init P Exn maxKeys now) ∧
      s.cache.counters.misses =
        Transition.occurrences step (answered false) as (init P Exn maxKeys now) +
          Transition.occurrences step recheckHits as (init P Exn maxKeys now) := by
  have W : (init P Exn maxKeys now).WellFormed maxKeys := wellFormed_init now
  let threads : Finset ℕ := (as.filterMap Action.thread).toFinset
  have hthreads : ∀ a ∈ as, ∀ t ∈ a.thread, t ∈ threads := by
    intro a ha t ht
    exact List.mem_toFinset.mpr (List.mem_filterMap.mpr ⟨a, ha, ht⟩)
  have hstart : (init P Exn maxKeys now).missedCalls threads = 0 :=
    Finset.sum_eq_zero fun _ _ => rfl
  have hend : s.missedCalls threads = 0 := by
    refine Finset.sum_eq_zero fun t _ => ?_
    rcases hquiet t with ht | ⟨result, source, ht⟩ <;> rw [ht] <;> rfl
  have hhits := hrun.balance (I := WellFormed maxKeys) (f := fun s => s.cache.counters.hits)
    (g := fun _ => 0) (v := fun _ _ _ => 0) (w := fun s a t => (answered true s a t).toNat)
    (fun s a _ t hstep hs => ⟨hs.step hstep, by simpa using hits_step hstep hs.rep⟩) W
  have hmisses := hrun.balance (I := WellFormed maxKeys) (f := fun s => s.cache.counters.misses)
    (g := missedCalls threads) (v := fun _ _ _ => 0)
    (w := fun s a t => (answered false s a t).toNat + (recheckHits s a t).toNat)
    (fun s a ha t hstep hs => ⟨hs.step hstep, misses_step hstep hs.rep (hthreads a ha)⟩) W
  simp only [Transition.total_zero, Transition.total_add, hstart, hend] at hhits hmisses
  refine ⟨?_, ?_⟩
  · exact hhits.trans (Nat.zero_add _)
  · exact hmisses.trans (Nat.zero_add _)

/-- **Each lookup is counted once** if and only if no `get_or_compute` finds its key, present and
live, when it looks a second time. -/
theorem countedOnce_iff {now : TimePoint} {as : List (Action Key Value Exn)} {s : System P Exn}
    (hrun : Transition.Run Step (init P Exn maxKeys now) as s) (hquiet : s.Quiet) :
    CountedOnce (init P Exn maxKeys now) as s ↔
      Transition.occurrences step recheckHits as (init P Exn maxKeys now) = 0 := by
  obtain ⟨hhits, hmisses⟩ := lookups_of_run hrun hquiet
  constructor
  · intro h
    have := h.2
    omega
  · intro h
    exact ⟨hhits, by omega⟩

/-- Thread 0 misses key 1 and loads it. -/
def loadOnMiss : List (Action ℕ ℕ Unit) :=
  [.call 0 (.getOrCompute 1 none), .run 0, .run 0, .run 0, .run 0, .loaderReturn 0 5, .run 0,
    .run 0, .run 0]

/-- Between the two lookups of thread 0 another thread stores the key. -/
def storedMeanwhile : List (Action ℕ ℕ Unit) :=
  [.call 0 (.getOrCompute 1 none), .run 0, .run 0, .call 1 (.set 1 9 none), .run 1, .run 0]

theorem countedOnce_iff_loadOnMiss :
    let start := init CacheParams.twoShards Unit 3 0
    let s := (Transition.exec step loadOnMiss start).get (by decide)
    CountedOnce start loadOnMiss s ↔
      Transition.occurrences step recheckHits loadOnMiss start = 0 := by
  intro start s
  have hrun : Transition.Run Step start loadOnMiss s :=
    Transition.run_of_exec (Option.some_get _).symm
  refine countedOnce_iff hrun fun t => ?_
  by_cases ht : t = 0
  · subst ht
    exact .inr ⟨.computed (.ok 5), some (1, 0), by decide⟩
  · left
    refine (threads_of_others hrun ?_).trans rfl
    simp [loadOnMiss, Action.thread, Ne.symm ht]

/-- One `get_or_compute` returns, and the statistics show a miss and a hit. -/
theorem lookup_counted_twice :
    ¬ ∀ (P : CacheParams ℕ ℕ) (maxKeys : ℕ) (now : TimePoint) (as : List (Action ℕ ℕ Unit))
      (s : System P Unit), Transition.Run Step (init P Unit maxKeys now) as s → s.Quiet →
        CountedOnce (init P Unit maxKeys now) as s := by
  intro h
  let start := init CacheParams.twoShards Unit 3 0
  let s := (Transition.exec step storedMeanwhile start).get (by decide)
  have hrun : Transition.Run Step start storedMeanwhile s :=
    Transition.run_of_exec (Option.some_get _).symm
  have hquiet : s.Quiet := by
    intro t
    by_cases ht : t = 0
    · subst ht
      exact .inr ⟨.computed (.ok 9), none, by decide⟩
    · by_cases ht' : t = 1
      · subst ht'
        exact .inr ⟨.stored true, none, by decide⟩
      · left
        refine (threads_of_others hrun ?_).trans rfl
        simp [storedMeanwhile, Action.thread, Ne.symm ht, Ne.symm ht']
  have hmisses := (h CacheParams.twoShards 3 0 storedMeanwhile s hrun hquiet).2
  have hone : s.cache.counters.misses = 1 := by decide
  have hnone : Transition.occurrences step (answered false) storedMeanwhile start = 0 := by decide
  rw [hone] at hmisses
  exact absurd (hmisses.trans hnone) (by decide)

end System
end MiniRedis
