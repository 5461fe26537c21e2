import MiniRedis.Concurrency.LoadOnce
import MiniRedis.Concurrency.LookupCount
import MiniRedis.Concurrency.StaleLoad

/-!
# Expiry under interleaving

A `get` and a clean-up read the clock once, before they wait for a lock, and what they find under
the lock may have been stored since. The reading is never ahead of the clock, so an entry that it
declares expired is expired; and it is never behind the begin of the call, so a value that it lets
pass was live when the call began.
-/
namespace MiniRedis
variable {Key Value Exn : Type}

/-- A thread that looks up `k` works with clock readings from `began` on. -/
def Pc.ReadsSince (k : Key) (began : TimePoint) : Pc Key Value Exn → Prop
  | .getSample _ key => key = k
  | .getShared _ key now => key = k ∧ began ≤ now
  | .getExclusive _ key now => key = k ∧ began ≤ now
  | .recheck key _ => key = k
  | _ => True

variable [DecidableEq Key] {P : CacheParams Key Value} {maxKeys : ℕ}

namespace System

/-- The step removes the entry `e` of a key, and not by a `del` or by evicting it in a `set`. -/
def RemovesExpired (k : Key) (e : Entry Value) (s : System P Exn) (a : Action Key Value Exn)
    (s' : System P Exn) : Prop :=
  Step s a s' ∧ s.entry k = some e ∧ s'.entry k = none ∧
    ∀ t, a.thread = some t → s.threads t ≠ .del k ∧ (s.threads t).storing = none

/-- A `get` or `get_or_compute` of `k` that thread `t` makes in `began` returns the value `v` of the
cache in the step from `before` to `after`. -/
def ReturnsCached (t : ℕ) (k : Key) (v : Value) (began before after : System P Exn) : Prop :=
  ∃ c began' as source, (c = .get k ∨ ∃ ttl, c = .getOrCompute k ttl) ∧
    Step began (.call t c) began' ∧ Transition.Run (StepFrom t) began' as before ∧
    Step before (.run t) after ∧
    (after.threads t = .done (.got (some v)) source ∨
      after.threads t = .done (.computed (.ok v)) source ∧ (before.threads t).looking)

/-- **Only what is expired is removed as expired.** -/
theorem RemovesExpired.isExpired {k : Key} {e : Entry Value} {s s' : System P Exn}
    {a : Action Key Value Exn} (h : RemovesExpired k e s a s') (W : s.WellFormed maxKeys) :
    isExpired e s.clock = true := by
  obtain ⟨hstep, he, hgone, hother⟩ := h
  by_contra hlive
  have hk : s.Live k := ⟨e, he, Bool.eq_false_iff.mpr hlive⟩
  rcases step_cases hstep with ⟨now, rfl, -, rfl⟩ | ⟨t, s₁, pc', ha, hmove, rfl⟩
  · exact absurd (hgone.symm.trans he) (by simp)
  · obtain ⟨hdel, hstore⟩ := hother t ha
    obtain ⟨e', he'⟩ := hmove.entry_kept W hk hdel hstore
    exact absurd (hgone.symm.trans he') (by simp)

/-- A call goes on with clock readings from its begin on. -/
theorem Move.readsSince {s s₁ : System P Exn} {pc pc' : Pc Key Value Exn} (h : Move s pc s₁ pc')
    {k : Key} {began : TimePoint} (hclock : began ≤ s.clock) (hinside : ¬ pc.Outside)
    (hpc : pc.ReadsSince k began) : pc'.ReadsSince k began := by
  cases h with
  | call c => exact absurd trivial hinside
  | getSample caller key => exact ⟨hpc, hclock⟩
  | sharedFound caller key now => exact hpc
  | sharedMiss caller key now | exclusiveMiss caller key now | exclusiveExpired caller key now =>
      cases caller
      · trivial
      · exact hpc.1
  | exclusiveHit caller key now e he hlive => cases caller <;> trivial
  | _ => trivial

/-- The clock has not gone back, and thread `t` works with readings from `began` on. -/
private def Since (t : ℕ) (k : Key) (began : TimePoint) (s : System P Exn) : Prop :=
  began ≤ s.clock ∧ (s.threads t).ReadsSince k began

private theorem Since.run {t : ℕ} {k : Key} {began : TimePoint} {s s' : System P Exn}
    {as : List (Action Key Value Exn)} (h : Transition.Run (StepFrom t) s as s')
    (hs : s.Since t k began) : s'.Since t k began := by
  refine h.invariant ?_ hs
  rintro x a y ⟨hxy, hinside⟩ ⟨hclock, hpc⟩
  rcases step_cases hxy with ⟨now, -, hle, rfl⟩ | ⟨u, x₁, pc', -, hmove, rfl⟩
  · exact ⟨hclock.trans hle, hpc⟩
  · refine ⟨hclock.trans_eq hmove.clock_eq.symm, ?_⟩
    rw [threads_setPc, hmove.threads_eq]
    split
    · next htu =>
      subst htu
      exact hmove.readsSince hclock hinside hpc
    · exact hpc

/-- A cached value that a move returns is that of an entry which is live by the thread's reading of
the clock. -/
theorem Move.entry_of_found {s s₁ : System P Exn} {pc : Pc Key Value Exn} {k : Key} {v : Value}
    {began : TimePoint} {result : Result Value Exn} {source : Option (Load Key)}
    (h : Move s pc s₁ (.done result source)) (hclock : began ≤ s.clock)
    (hpc : pc.ReadsSince k began)
    (hresult : result = .got (some v) ∨ result = .computed (.ok v) ∧ pc.looking) :
    ∃ e, s.entry k = some e ∧ e.value = v ∧ isExpired e began = false := by
  have live : ∀ {e : Entry Value} {now}, isExpired e now = false → began ≤ now →
      isExpired e began = false := by
    intro e now hlive hle
    by_contra hexp
    exact absurd (isExpired_mono (Bool.not_eq_false _ ▸ hexp) hle) (by simp [hlive])
  generalize hpc' : (Pc.done result source : Pc Key Value Exn) = pc' at h
  cases h with
  | exclusiveHit caller key now e he hlive =>
      obtain ⟨rfl, hle⟩ := hpc
      refine ⟨e, he, ?_, live hlive hle⟩
      cases caller <;> cases hpc' <;> simpa [Pc.looking] using hresult
  | recheckHit key ttl e he hlive =>
      cases hpc
      cases hpc'
      exact ⟨e, he, by simpa [Pc.looking] using hresult, live hlive hclock⟩
  | sharedMiss caller | exclusiveMiss caller | exclusiveExpired caller =>
      cases caller <;> cases hpc'
      simp at hresult
  | call c => cases c <;> cases hpc'
  | unregister key r out | wake key r out =>
      cases hpc'
      simp [Pc.looking] at hresult
  | _ => cases hpc' <;> simp at hresult

/-- A value that a lookup returns from the cache was live when the call began. -/
theorem ReturnsCached.live {t : ℕ} {k : Key} {v : Value} {began before after : System P Exn}
    (h : ReturnsCached t k v began before after) :
    ∃ e, before.entry k = some e ∧ e.value = v ∧ isExpired e began.clock = false := by
  obtain ⟨c, began', as, source, hc, hcall, hrun, hstep, hresult⟩ := h
  have hsince : began'.Since t k began.clock := by
    constructor
    · rcases step_cases hcall with ⟨now, heq, -, -⟩ | ⟨u, s₁, pc', -, hmove, rfl⟩
      · cases heq
      · exact hmove.clock_eq.ge
    · rw [threads_of_call hcall]
      rcases hc with rfl | ⟨ttl, rfl⟩ <;> rfl
  obtain ⟨hclock, hpc⟩ := hsince.run hrun
  obtain ⟨s₁, pc', hmove, rfl⟩ := move_of_run hstep rfl
  rw [threads_self_setPc] at hresult
  rcases hresult with rfl | ⟨rfl, hlooking⟩
  · exact hmove.entry_of_found hclock hpc (.inl rfl)
  · exact hmove.entry_of_found hclock hpc (.inr ⟨rfl, hlooking⟩)

/-- **Expiry is exact under any interleaving.** What a section of `get`, `get_or_compute` or
`cleanup_expired` removes has reached its own deadline by then; and no lookup returns the value of
an entry whose deadline had passed when the lookup began. -/
theorem expiry_exact {s : System P Exn} (h : s.Reachable maxKeys) :
    (∀ k e a s', RemovesExpired k e s a s' → isExpired e s.clock = true) ∧
    (∀ t k v before after, ReturnsCached t k v s before after →
      ∃ e, before.entry k = some e ∧ e.value = v ∧ isExpired e s.clock = false) :=
  ⟨fun _ _ _ _ hremoves => hremoves.isExpired h.wellFormed, fun _ _ _ _ _ hreturns => hreturns.live⟩

/-- A clean-up is about to come to the shard of a key whose millisecond is over. -/
private def cleaningUp : List (Action ℕ ℕ Unit) :=
  [.call 0 (.set 1 5 (some 1)), .run 0, .tick 2000000, .call 1 .cleanupExpired, .run 1, .run 1]

theorem expiry_exact_twoShards :
    let s := (Transition.exec step cleaningUp (init CacheParams.twoShards Unit 3 0)).get (by decide)
    ∃ e, s.entry 1 = some e ∧ isExpired e s.clock = true := by
  intro s
  have hs : s.Reachable 3 := reachable_of_exec (Option.some_get _).symm
  let s' := (step (.run 1) s).get (by decide)
  have hstep : Step s (.run 1) s' := (Option.some_get _).symm
  have hstored : (s.entry 1).isSome = true := by decide
  have hgone : s'.entry 1 = none := by
    have hnone : (s'.entry 1).isNone = true := by decide
    exact Option.isNone_iff_eq_none.mp hnone
  obtain ⟨e, he⟩ := Option.isSome_iff_exists.mp hstored
  refine ⟨e, he, (expiry_exact hs).1 1 e (.run 1) s' ⟨hstep, he, hgone, ?_⟩⟩
  rintro t ⟨⟩
  have hpc : s.threads 1 = .cleanup 2000000 1 := by decide
  rw [hpc]
  exact ⟨by simp, rfl⟩

end System
end MiniRedis
