import MiniRedis.Concurrency.Invariants
import MiniRedis.Lib.SingleFlight

/-!
# Loads in flight

Seen from the in-flight maps and the promises, the system is an instance of the single-flight
protocol: `System.board` forgets everything else, and every step of the system is a step of the
protocol (`Move.board_step`). What the protocol guarantees then holds of the cache.
-/
namespace MiniRedis
variable {Key Value Exn : Type}

/-- What a thread has to do with the records in flight. -/
def Pc.role : Pc Key Value Exn → SingleFlight.Role Key (Except Exn Value)
  | .registered k _ r => .working k r
  | .loading k _ r => .working k r
  | .loaded k _ r _ => .working k r
  | .stored k r _ _ => .working k r
  | .threw k r _ => .working k r
  | .completed k r out => .completed k r out
  | .waiting _ r => .waiting r
  | _ => .outside

theorem role_of_pending {pc : Pc Key Value Exn} {k : Key} {r : RecordId}
    {out : Except Exn Value} (h : pc.pending = some (k, r, out)) : pc.role = .working k r := by
  cases pc <;> cases h <;> rfl

@[simp] theorem role_start (c : Call Key Value) : (c.start : Pc Key Value Exn).role = .outside := by
  cases c <;> rfl

@[simp] theorem role_missed (k : Key) (caller : Caller) :
    (caller.missed k : Pc Key Value Exn).role = .outside := by
  cases caller <;> rfl

@[simp] theorem role_found (v : Value) (source : Option (Load Key)) (caller : Caller) :
    (caller.found v source : Pc Key Value Exn).role = .outside := by
  cases caller <;> rfl

variable [DecidableEq Key] {P : CacheParams Key Value} {maxKeys : ℕ}

theorem Edits.inflight_eq {allowed : Cause Key Value → Prop} {p q : Viewed Key Value}
    (h : Edits P allowed p q) (hall : ¬ allowed .flight) :
    q.1.shard.inflight = p.1.shard.inflight := by
  refine h.invariant (I := fun q => q.1.shard.inflight = p.1.shard.inflight) ?_ rfl
  rintro p' c q' hc hedit hp
  have hne : c ≠ .flight := by
    rintro rfl
    exact hall hc
  exact (hedit.inflight_eq hne).trans hp

namespace System

/-- The part of the state that single flight is about. -/
def board (s : System P Exn) : SingleFlight.Board ℕ Key (Except Exn Value) where
  flight := s.flight
  promise := s.promises
  next := s.nextRecord
  role := fun t => (s.threads t).role

omit [DecidableEq Key] in
theorem inflight_release (s : System P Exn) (k : Key) (l : Locked Key Value)
    (hl : l.shard.inflight = (s.cache.shards (shardForKey P k)).inflight) (i : Fin P.numShards) :
    ((s.release k l).cache.shards i).inflight = (s.cache.shards i).inflight := by
  by_cases hi : i = shardForKey P k
  · subst hi
    simpa [release] using hl
  · simp [release, hi]

theorem inflight_purged {s : System P Exn} {k : Key} {now : TimePoint} {l : Locked Key Value}
    (hl : s.Purged k now l) : l.shard.inflight = (s.cache.shards (shardForKey P k)).inflight := by
  rcases hl with ⟨-, rfl⟩ | ⟨e, -, -, rfl⟩ <;> rfl

/-- Only registering and unregistering touch the in-flight maps. -/
theorem Move.inflight_eq {s s₁ : System P Exn} {pc pc' : Pc Key Value Exn} (h : Move s pc s₁ pc')
    (R : ∃ xs, s.cache.Rep xs) (hown : ∀ k ttl r, pc = .recheck k ttl → pc' ≠ .registered k ttl r)
    (hdone : ∀ k r out, pc ≠ .completed k r out) (i : Fin P.numShards) :
    (s₁.cache.shards i).inflight = (s.cache.shards i).inflight := by
  obtain ⟨xs, R⟩ := R
  by_cases hflight : pc.Causes s.clock .flight
  · cases h with
    | recheckHit k ttl e he hlive =>
        exact inflight_release s k (((s.held k).touchLruLocked k e).count Counters.hit) rfl i
    | recheckJoin k ttl l r hl hr => exact inflight_release s k l (inflight_purged hl) i
    | recheckOwn k ttl l hl hfree => exact absurd rfl (hown k ttl _ rfl)
    | unregister k r out => exact absurd rfl (hdone k r out)
    | _ => simp_all [Pc.Causes]
  · obtain ⟨j, l, ys, hedits, hcache⟩ := h.edits R
    have hl := hedits.inflight_eq fun hcause => hflight hcause.1
    rw [hcache, ShardedCache.shards_unlock]
    by_cases hij : i = j
    · subst hij
      rw [Function.update_self]
      exact hl
    · rw [Function.update_of_ne hij]

/-- Registering puts the next record in flight for the key, and for no other. -/
theorem flight_register {s : System P Exn} {k : Key} {l : Locked Key Value}
    (hl : l.shard.inflight = (s.cache.shards (shardForKey P k)).inflight) (r : RecordId) :
    (s.release k { l with shard := { l.shard with
      inflight := l.shard.inflight.insert k r } }).flight = Function.update s.flight k (some r) := by
  funext j
  by_cases hjk : j = k
  · subst hjk
    simp [flight, release]
  · rw [Function.update_of_ne hjk]
    by_cases hshard : shardForKey P j = shardForKey P k
    · simp only [flight, release, ShardedCache.shards_unlock, hshard, Function.update_self]
      rw [AList.lookup_insert_ne hjk, hl]
    · simp [flight, release, hshard]

theorem flight_unregister (s : System P Exn) (k : Key) :
    (s.release k ((s.held k).unregisterLocked k)).flight = Function.update s.flight k none := by
  funext j
  by_cases hjk : j = k
  · subst hjk
    simp [flight, release, Locked.unregisterLocked]
  · rw [Function.update_of_ne hjk]
    by_cases hshard : shardForKey P j = shardForKey P k
    · simp only [flight, release, ShardedCache.shards_unlock, hshard, Function.update_self,
        Locked.unregisterLocked]
      exact AList.lookup_erase_ne hjk
    · simp [flight, release, hshard]

theorem board_setPc (t : ℕ) (pc : Pc Key Value Exn) (s : System P Exn) :
    (s.setPc t pc).board = s.board.setRole t pc.role := by
  have hrole : (fun u => ((s.setPc t pc).threads u).role)
      = Function.update (fun u => (s.threads u).role) t pc.role := by
    funext u
    rw [threads_setPc, Function.update_apply]
    split <;> rfl
  simp only [board, SingleFlight.Board.setRole, hrole]
  rfl

theorem board_eq {s s₁ : System P Exn} (hflight : s₁.flight = s.flight)
    (hpromise : s₁.promises = s.promises) (hnext : s₁.nextRecord = s.nextRecord)
    (hthreads : s₁.threads = s.threads) : s₁.board = s.board := by
  simp only [board, hflight, hpromise, hnext, hthreads]

theorem setRole_self {s : System P Exn} {t : ℕ} {role : SingleFlight.Role Key (Except Exn Value)}
    (h : s.board.role t = role) : s.board.setRole t role = s.board := by
  rw [← h]
  simp only [SingleFlight.Board.setRole, Function.update_eq_self]

/-- **A move is a step of the single-flight protocol.** -/
theorem Move.board_step {s s₁ : System P Exn} {t : ℕ} {pc' : Pc Key Value Exn}
    (h : Move s (s.threads t) s₁ pc') (R : ∃ xs, s.cache.Rep xs) (hs : s.board.Sound) :
    SingleFlight.Board.Step t s.board (s₁.setPc t pc').board := by
  generalize hpc : s.threads t = pc at h
  have hrole : s.board.role t = pc.role := congrArg Pc.role hpc
  have hflight : (∀ k ttl r, pc = .recheck k ttl → pc' ≠ .registered k ttl r) →
      (∀ k r out, pc ≠ .completed k r out) → s₁.flight = s.flight := by
    intro hown hdone
    funext k
    rw [flight, h.inflight_eq R hown hdone]
    rfl
  have quiet : (∀ k ttl r, pc = .recheck k ttl → pc' ≠ .registered k ttl r) →
      (∀ k r out, pc ≠ .completed k r out) → s₁.promises = s.promises →
      s₁.nextRecord = s.nextRecord → pc'.role = pc.role →
      SingleFlight.Board.Step t s.board (s₁.setPc t pc').board := by
    intro hown hdone hpromise hnext hrole'
    rw [board_setPc, board_eq (hflight hown hdone) hpromise hnext h.threads_eq, hrole',
      setRole_self hrole]
    exact .idle _
  cases h with
  | recheckOwn k ttl l hl hfree =>
      have hboard : (System.setPc t (.registered k ttl s.nextRecord)
          { s.release k { l with shard := { l.shard with
              inflight := l.shard.inflight.insert k s.nextRecord } } with
            nextRecord := s.nextRecord + 1 }).board = s.board.register t k := by
        rw [board_setPc, board]
        simp only [SingleFlight.Board.register, SingleFlight.Board.setRole]
        congr 1
        exact flight_register (inflight_purged hl) _
      rw [hboard]
      exact .register _ k hrole hfree
  | recheckJoin k ttl l r hl hr =>
      rw [board_setPc, board_eq (hflight (by simp) (by simp)) rfl rfl rfl]
      exact .join _ k r hrole hr
  | complete k r out hp hopen =>
      have hboard : (System.setPc t (.completed k r out)
          { s with promises := Function.update s.promises r (some out) }).board
            = s.board.complete t k r out := by
        rw [board_setPc]
        rfl
      rw [hboard]
      exact .complete _ k r out (hrole.trans (role_of_pending hp))
  | broken k r out out' hp hdone =>
      have hopen := hs.working_open t k r (hrole.trans (role_of_pending hp))
      exact absurd (hopen.symm.trans hdone) (by simp)
  | unregister k r out =>
      have hboard : (System.setPc t (.done (.computed out) (some (k, r)))
          (s.release k ((s.held k).unregisterLocked k))).board = s.board.unregister t k := by
        rw [board_setPc, board]
        simp only [SingleFlight.Board.unregister, SingleFlight.Board.setRole]
        congr 1
        exact flight_unregister s k
      rw [hboard]
      exact .unregister _ k r out hrole
  | wake k r out hout =>
      rw [board_setPc]
      exact .wake _ r out hrole hout
  | call c => exact quiet (by simp) (by simp) rfl rfl (role_start c)
  | sharedMiss caller k now hk => exact quiet (by simp) (by simp) rfl rfl (role_missed k caller)
  | exclusiveMiss caller k now hk =>
      exact quiet (by simp) (by simp) rfl rfl (role_missed k caller)
  | exclusiveExpired caller k now e he hexp =>
      exact quiet (by simp) (by simp) rfl rfl (role_missed k caller)
  | exclusiveHit caller k now e he hlive =>
      exact quiet (by simp) (by simp) rfl rfl (role_found _ _ caller)
  | _ => exact quiet (by simp) (by simp) rfl rfl rfl

/-! ## Every reachable state -/

/-- What holds of the records in flight. -/
structure InFlightSound (maxKeys : ℕ) (s : System P Exn) : Prop where
  wellFormed : s.WellFormed maxKeys
  sound : s.board.Sound
  /-- A key's record is in the shard its hash selects. -/
  home : ∀ i k r, (s.cache.shards i).inflight.lookup k = some r → shardForKey P k = i
  unbroken : ∀ t, s.threads t ≠ .broken

theorem inFlightSound_init (now : TimePoint) : InFlightSound maxKeys (init P Exn maxKeys now) where
  wellFormed := wellFormed_init now
  sound := SingleFlight.Board.sound_empty
  home := fun _ _ _ h => by cases h
  unbroken := fun _ h => by cases h

theorem Move.home {s s₁ : System P Exn} {pc pc' : Pc Key Value Exn} (h : Move s pc s₁ pc')
    (R : ∃ xs, s.cache.Rep xs)
    (hs : ∀ i k r, (s.cache.shards i).inflight.lookup k = some r → shardForKey P k = i) :
    ∀ i k r, (s₁.cache.shards i).inflight.lookup k = some r → shardForKey P k = i := by
  by_cases hflight : (∀ k ttl r, pc = .recheck k ttl → pc' ≠ .registered k ttl r) ∧
      ∀ k r out, pc ≠ .completed k r out
  · intro i k r hk
    rw [h.inflight_eq R hflight.1 hflight.2] at hk
    exact hs i k r hk
  · intro i j r hj
    cases h with
    | recheckOwn k ttl l hl hfree =>
        by_cases hi : i = shardForKey P k
        · subst hi
          simp only [release, ShardedCache.shards_unlock, Function.update_self] at hj
          by_cases hjk : j = k
          · rw [hjk]
          · rw [AList.lookup_insert_ne hjk, inflight_purged hl] at hj
            exact hs _ j r hj
        · simp only [release, ShardedCache.shards_unlock, Function.update_of_ne hi] at hj
          exact hs i j r hj
    | unregister k r' out =>
        by_cases hi : i = shardForKey P k
        · subst hi
          simp only [release, ShardedCache.shards_unlock, Function.update_self,
            Locked.unregisterLocked] at hj
          exact hs _ j r (AList.lookup_of_lookup_erase hj).2
        · simp only [release, ShardedCache.shards_unlock, Function.update_of_ne hi] at hj
          exact hs i j r hj
    | complete k r' out hp hopen => exact hs i j r hj
    | broken k r' out out' hp hdone => exact hs i j r hj
    | _ => simp at hflight

/-- An owner never finds its promise completed. -/
theorem Move.ne_broken {s s₁ : System P Exn} {t : ℕ} {pc' : Pc Key Value Exn}
    (h : Move s (s.threads t) s₁ pc') (hs : s.board.Sound) : pc' ≠ .broken := by
  generalize hpc : s.threads t = pc at h
  intro hbroken
  cases h with
  | broken k r out out' hp hdone =>
      have hrole : s.board.role t = .working k r :=
        (congrArg Pc.role hpc).trans (role_of_pending hp)
      exact absurd ((hs.working_open t k r hrole).symm.trans hdone) (by simp)
  | call c => cases c <;> cases hbroken
  | sharedMiss caller | exclusiveMiss caller | exclusiveExpired caller | exclusiveHit caller =>
      cases caller <;> cases hbroken
  | _ => cases hbroken

theorem InFlightSound.step {s s' : System P Exn} {a : Action Key Value Exn} (h : Step s a s')
    (hs : s.InFlightSound maxKeys) : s'.InFlightSound maxKeys := by
  have W := hs.wellFormed.step h
  rcases step_cases h with ⟨now, -, -, rfl⟩ | ⟨t, s₁, pc', -, hmove, rfl⟩
  · exact ⟨W, hs.sound, hs.home, hs.unbroken⟩
  · refine ⟨W, (hmove.board_step hs.wellFormed.rep hs.sound).sound hs.sound,
      hmove.home hs.wellFormed.rep hs.home, ?_⟩
    intro u
    rw [threads_setPc, hmove.threads_eq]
    split
    · exact hmove.ne_broken hs.sound
    · exact hs.unbroken u

theorem InFlightSound.run {s s' : System P Exn} {as : List (Action Key Value Exn)}
    (h : Transition.Run Step s as s') (hs : s.InFlightSound maxKeys) :
    s'.InFlightSound maxKeys :=
  h.invariant (fun _ _ _ hstep hs => hs.step hstep) hs

/-- A property that each step of a sound system preserves. -/
theorem InFlightSound.preserves {Q : System P Exn → Prop}
    (hstep : ∀ x a y, Step x a y → x.InFlightSound maxKeys → Q x → Q y) {s s' : System P Exn}
    {as : List (Action Key Value Exn)} (h : Transition.Run Step s as s')
    (hs : s.InFlightSound maxKeys) (hQ : Q s) : Q s' :=
  h.invariant_under (fun _ _ _ hxy hx => hx.step hxy) hstep hs hQ

theorem Reachable.inFlightSound {s : System P Exn} (h : s.Reachable maxKeys) :
    s.InFlightSound maxKeys := by
  obtain ⟨now, as, hrun⟩ := h
  exact (inFlightSound_init now).run hrun

end System
end MiniRedis
