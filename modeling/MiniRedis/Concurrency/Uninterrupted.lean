import MiniRedis.Concurrency.Commutation
import MiniRedis.Concurrency.InFlight

/-!
# A call that nobody interrupts

`ShardedCache.perform` makes a call in one go. A thread of the system makes it step by step. When
only that thread takes steps, the two are the same: the thread ends with the result of `perform`, or
waits for a record if there is none, and leaves the cache that `perform` leaves.
-/
namespace MiniRedis
variable {Key Value Exn : Type} [DecidableEq Key] {P : CacheParams Key Value} {maxKeys : ℕ}

/-- The call that starts an operation. The loader is the caller's business. -/
def Operation.call : Operation Key Value Exn → Call Key Value
  | .set k v ttl => .set k v ttl
  | .get k => .get k
  | .del k => .del k
  | .getOrCompute k _ ttl => .getOrCompute k ttl

namespace System

/-- Thread `t` alone takes the system from `s` to `s'`. -/
def Solo (t : ℕ) (s s' : System P Exn) : Prop :=
  ∃ as : List (Action Key Value Exn), (∀ a ∈ as, a.thread = some t) ∧
    Transition.Run Step s as s'

variable {s s' s'' : System P Exn} {t : ℕ}

theorem Solo.step {a : Action Key Value Exn} (h : Step s a s') (ha : a.thread = some t) :
    Solo t s s' :=
  ⟨[a], by simpa using ha, .cons h (.nil s')⟩

theorem Solo.trans (h : Solo t s s') (h' : Solo t s' s'') : Solo t s s'' := by
  obtain ⟨as, has, hrun⟩ := h
  obtain ⟨bs, hbs, hrun'⟩ := h'
  exact ⟨as ++ bs, List.forall_mem_append.mpr ⟨has, hbs⟩, hrun.append hrun'⟩

theorem Solo.run (h : s.runThread t = some s') : Solo t s s' := .step (a := .run t) h rfl

/-- Thread `t` alone gets from `s` to `pc`, with the cache `c`. No promise has been touched. -/
def Leads (t : ℕ) (s : System P Exn) (c : ShardedCache P) (pc : Pc Key Value Exn) : Prop :=
  ∃ s', Solo t s s' ∧ s'.cache = c ∧ s'.clock = s.clock ∧ s'.promises = s.promises ∧
    s'.nextRecord = s.nextRecord ∧ s'.threads t = pc

/-- `get`, whoever calls it. -/
theorem leads_get {caller : Caller} {k : Key} (hpc : s.threads t = .getSample caller k) :
    ∃ source, Leads t s (s.cache.get k s.clock).2
      (match (s.cache.get k s.clock).1 with
        | some v => caller.found v source
        | none => caller.missed k) := by
  let s₁ := s.setPc t (.getShared caller k s.clock)
  have hpc₁ : s₁.threads t = .getShared caller k s.clock := threads_self_setPc ..
  have hsample : Solo t s s₁ := .run (by simp only [runThread, hpc, s₁])
  let r := s.cache.withLock (shardForKey P k) (Locked.getSharedLocked k)
  have hget : s.cache.get k s.clock =
      if r.1 then r.2.withLock (shardForKey P k) (Locked.getExclusiveLocked k s.clock)
      else (none, r.2) := rfl
  let s₂ := { s₁ with cache := r.2 }.setPc t
    (if r.1 then .getExclusive caller k s.clock else caller.missed k)
  have hpc₂ : s₂.threads t =
      if r.1 then .getExclusive caller k s.clock else caller.missed k := threads_self_setPc ..
  have hshared : Solo t s₁ s₂ := .run (by simp only [runThread, hpc₁]; rfl)
  cases hr : r.1 with
  | false =>
      simp only [hr, Bool.false_eq_true, if_false] at hget hpc₂
      rw [hget]
      exact ⟨none, s₂, hsample.trans hshared, rfl, rfl, rfl, rfl, hpc₂⟩
  | true =>
      simp only [hr, if_true] at hget hpc₂
      let r' := r.2.withLock (shardForKey P k) (Locked.getExclusiveLocked k s.clock)
      let s₃ := { s₂ with cache := r'.2 }.setPc t
        (match r'.1 with
          | some v => caller.found v (s₂.source k)
          | none => caller.missed k)
      have hexclusive : Solo t s₂ s₃ := .run (by simp only [runThread, hpc₂]; rfl)
      rw [hget]
      exact ⟨s₂.source k, s₃, (hsample.trans hshared).trans hexclusive, rfl, rfl, rfl, rfl,
        threads_self_setPc ..⟩

/-- The last steps of a load: complete the promise and take the record off the table. -/
theorem solo_complete {k : Key} {r : RecordId} {out : Except Exn Value}
    (hstep : s.runThread t = some (s.complete t k r out)) (hopen : s.promises r = none) :
    ∃ s', Solo t s s' ∧
      s'.cache = (s.cache.withLock (shardForKey P k) fun l => ((), l.unregisterLocked k)).2 ∧
      s'.threads t = .done (.computed out) (some (k, r)) := by
  let s₁ := { s with promises := Function.update s.promises r (some out) }.setPc t
    (.completed k r out)
  have hpc₁ : s₁.threads t = .completed k r out := threads_self_setPc ..
  have hcomplete : Solo t s s₁ := .run (by rw [hstep]; simp only [complete, hopen, s₁])
  let c := (s.cache.withLock (shardForKey P k) fun l => ((), l.unregisterLocked k)).2
  let s₂ := { s₁ with cache := c }.setPc t (.done (.computed out) (some (k, r)))
  have hunregister : Solo t s₁ s₂ := .run (by simp only [runThread, hpc₁]; rfl)
  exact ⟨s₂, hcomplete.trans hunregister, rfl, threads_self_setPc ..⟩

/-- A load, from the registration of its record to its end. -/
theorem solo_ownLoad {k : Key} {ttl : Option Millis} {r : RecordId}
    (hpc : s.threads t = .registered k ttl r) (hopen : s.promises r = none)
    (loader : Except Exn Value) :
    ∃ s', Solo t s s' ∧ s'.cache = s.cache.ownLoad k loader ttl s.clock ∧
      s'.threads t = .done (.computed loader) (some (k, r)) := by
  let s₁ := s.setPc t (.loading k ttl r)
  have hpc₁ : s₁.threads t = .loading k ttl r := threads_self_setPc ..
  have hload : Solo t s s₁ := .run (by simp only [runThread, hpc, s₁])
  cases loader with
  | ok v =>
      let s₂ := s₁.setPc t (.loaded k ttl r v)
      have hpc₂ : s₂.threads t = .loaded k ttl r v := threads_self_setPc ..
      have hreturn : Solo t s₁ s₂ :=
        .step (a := .loaderReturn t v) (by simp only [Step, step, hpc₁, s₂]) rfl
      let stored := s₂.store k v ttl (some r)
      let s₃ := stored.2.setPc t (.stored k r v stored.1)
      have hpc₃ : s₃.threads t = .stored k r v stored.1 := threads_self_setPc ..
      have hstore : Solo t s₂ s₃ := .run (by simp only [runThread, hpc₂]; rfl)
      have hcomplete : s₃.runThread t = some (s₃.complete t k r (.ok v)) := by
        simp only [runThread, hpc₃]
      obtain ⟨s', hsolo, hcache, hdone⟩ := solo_complete hcomplete hopen
      exact ⟨s', ((hload.trans hreturn).trans hstore).trans hsolo, hcache, hdone⟩
  | error exn =>
      let s₂ := s₁.setPc t (.threw k r exn)
      have hpc₂ : s₂.threads t = .threw k r exn := threads_self_setPc ..
      have hthrow : Solo t s₁ s₂ :=
        .step (a := .loaderThrow t exn) (by simp only [Step, step, hpc₁, s₂]) rfl
      have hcomplete : s₂.runThread t = some (s₂.complete t k r (.error exn)) := by
        simp only [runThread, hpc₂]
      obtain ⟨s', hsolo, hcache, hdone⟩ := solo_complete hcomplete hopen
      exact ⟨s', (hload.trans hthrow).trans hsolo, hcache, hdone⟩

/-- The thread shows a result when its call is over, and waits while there is none. -/
def Shows (t : ℕ) (s : System P Exn) : Option (Result Value Exn) → Prop
  | some result => ∃ source, s.threads t = .done result source
  | none => ∃ k r, s.threads t = .waiting k r

/-- The owner's record is the new one. -/
theorem recheck_owner {k : Key} {now : TimePoint} {fresh record : RecordId}
    {l : Locked Key Value} (h : (l.recheckLocked k now fresh).1 = .owner record) :
    record = fresh := by
  have hregister : ∀ l : Locked Key Value,
      (Locked.recheckLocked.register k fresh l).1 = .owner record → record = fresh := by
    intro l hl
    rw [Locked.register_eq] at hl
    split at hl
    · cases hl
    · exact (Locked.Recheck.owner.inj hl).symm
  unfold Locked.recheckLocked at h
  split at h
  · exact hregister _ h
  · split at h
    · exact hregister _ h
    · cases h

/-- `get_or_compute` after its first lookup has missed. -/
theorem solo_computeMissed {k : Key} {ttl : Option Millis} (hpc : s.threads t = .recheck k ttl)
    (hfresh : s.promises s.nextRecord = none) (loader : Except Exn Value) :
    ∃ s', Solo t s s' ∧
      s'.cache = (s.cache.computeMissed k loader ttl s.clock s.promises s.nextRecord).2 ∧
      Shows t s'
        ((s.cache.computeMissed k loader ttl s.clock s.promises s.nextRecord).1.map .computed) := by
  let r := s.cache.withLock (shardForKey P k) (Locked.recheckLocked k s.clock s.nextRecord)
  have hr : s.cache.withLock (shardForKey P k) (Locked.recheckLocked k s.clock s.nextRecord) =
      (r.1, r.2) := rfl
  unfold ShardedCache.computeMissed
  cases hres : r.1 with
  | hit v =>
      rw [hres] at hr
      let s₁ := { s with cache := r.2 }.setPc t (.done (.computed (.ok v)) (s.source k))
      have hsolo : Solo t s s₁ := .run (by simp only [runThread, hpc, hr, s₁])
      simp only [hr]
      exact ⟨s₁, hsolo, rfl, s.source k, threads_self_setPc ..⟩
  | joined record =>
      rw [hres] at hr
      let s₁ := { s with cache := r.2 }.setPc t (.waiting k record)
      have hpc₁ : s₁.threads t = .waiting k record := threads_self_setPc ..
      have hjoin : Solo t s s₁ := .run (by simp only [runThread, hpc, hr, s₁])
      simp only [hr]
      cases hout : s.promises record with
      | none => exact ⟨s₁, hjoin, rfl, k, record, hpc₁⟩
      | some out =>
          have hout₁ : s₁.promises record = some out := hout
          let s₂ := s₁.setPc t (.done (.computed out) (some (k, record)))
          have hwake : Solo t s₁ s₂ := .run (by
            simp only [runThread, hpc₁, hout₁, Option.map_some, s₂])
          exact ⟨s₂, hjoin.trans hwake, rfl, some (k, record), threads_self_setPc ..⟩
  | owner record =>
      rw [hres] at hr
      obtain rfl : record = s.nextRecord := recheck_owner hres
      let s₁ := { s with cache := r.2, nextRecord := s.nextRecord + 1 }.setPc t
        (.registered k ttl s.nextRecord)
      have hpc₁ : s₁.threads t = .registered k ttl s.nextRecord := threads_self_setPc ..
      have hregister : Solo t s s₁ := .run (by simp only [runThread, hpc, hr, s₁])
      obtain ⟨s', hsolo, hcache, hdone⟩ := solo_ownLoad hpc₁ hfresh loader
      simp only [hr]
      exact ⟨s', hregister.trans hsolo, hcache, _, hdone⟩

/-- **An uninterrupted call is `perform`.** A thread that makes a call in a reachable state, and is
the only one to take steps, comes to its end with the result and the cache that `perform` gives, or
to wait for a load of another thread if `perform` gives no result. -/
theorem Reachable.solo_perform (h : s.Reachable maxKeys) (hidle : s.threads t = .idle)
    (op : Operation Key Value Exn) :
    ∃ s', Solo t s s' ∧ s'.cache = (s.cache.perform s.clock s.promises op s.nextRecord).2 ∧
      Shows t s' (s.cache.perform s.clock s.promises op s.nextRecord).1 := by
  let s₁ := s.setPc t op.call.start
  have hpc₁ : s₁.threads t = op.call.start := threads_self_setPc ..
  have hcall : Solo t s s₁ :=
    .step (a := .call t op.call) (by simp only [Step, step, hidle, s₁]) rfl
  cases op with
  | set k v ttl =>
      let r := s₁.store k v ttl none
      let s₂ := r.2.setPc t (.done (.stored r.1) none)
      have hset : Solo t s₁ s₂ := .run (by simp only [runThread, hpc₁]; rfl)
      exact ⟨s₂, hcall.trans hset, rfl, none, threads_self_setPc ..⟩
  | get k =>
      obtain ⟨source, s₂, hget, hcache, -, -, -, hdone⟩ := leads_get hpc₁
      refine ⟨s₂, hcall.trans hget, hcache, ?_⟩
      change ∃ source, s₂.threads t = .done (.got (s₁.cache.get k s₁.clock).1) source
      cases hres : (s₁.cache.get k s₁.clock).1 with
      | some v => exact ⟨source, by rw [hdone, hres]; rfl⟩
      | none => exact ⟨none, by rw [hdone, hres]; rfl⟩
  | del k =>
      let r := s₁.cache.del k
      let s₂ := { s₁ with cache := r.2 }.setPc t (.done (.deleted r.1) none)
      have hdel : Solo t s₁ s₂ := .run (by simp only [runThread, hpc₁]; rfl)
      exact ⟨s₂, hcall.trans hdel, rfl, none, threads_self_setPc ..⟩
  | getOrCompute k loader ttl =>
      obtain ⟨source, s₂, hget, hcache, hclock, hpromises, hnext, hpc₂⟩ := leads_get hpc₁
      have hclock₁ : s₂.clock = s.clock := hclock
      have hcache₁ : s₂.cache = (s.cache.get k s.clock).2 := hcache
      cases hres : (s.cache.get k s.clock).1 with
      | some v =>
          have hdone : s₂.threads t = .done (.computed (.ok v)) source := by
            rw [hpc₂, show (s₁.cache.get k s₁.clock).1 = some v from hres]
            rfl
          refine ⟨s₂, hcall.trans hget, ?_, ?_⟩ <;>
            simp only [ShardedCache.perform, ShardedCache.getOrCompute, hres]
          · exact hcache
          · exact ⟨source, hdone⟩
      | none =>
          have hmissed : s₂.threads t = .recheck k ttl := by
            rw [hpc₂, show (s₁.cache.get k s₁.clock).1 = none from hres]
            rfl
          have hfresh : s₂.promises s₂.nextRecord = none := by
            rw [hpromises, hnext]
            cases hkept : s.promises s.nextRecord with
            | none => exact hkept
            | some out =>
                have hlt := h.inFlightSound.sound.kept_created s.nextRecord out hkept
                exact absurd hlt (Nat.lt_irrefl _)
          obtain ⟨s', hsolo, hcache', hshows⟩ := solo_computeMissed hmissed hfresh loader
          rw [hcache₁, hclock₁, hpromises, hnext] at hcache' hshows
          refine ⟨s', (hcall.trans hget).trans hsolo, ?_, ?_⟩ <;>
            simp only [ShardedCache.perform, ShardedCache.getOrCompute, hres]
          · exact hcache'
          · exact hshows

end System
end MiniRedis
