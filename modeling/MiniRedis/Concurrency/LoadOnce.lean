import MiniRedis.Concurrency.Agreement

/-!
# A key is loaded once

No two loaders of one key run at the same time. And when an owner has stored its value, the next
loader of that key can only start after the entry is gone for a reason a client can see: somebody
deleted the key, storing another key evicted it, or its deadline has passed.
-/
namespace MiniRedis
variable {Key Value Exn : Type} [DecidableEq Key] {P : CacheParams Key Value} {maxKeys : ℕ}

/-- An entry past its deadline stays so. -/
theorem isExpired_mono {e : Entry Value} {now later : TimePoint} (h : isExpired e now = true)
    (hle : now ≤ later) : isExpired e later = true := by
  simp only [isExpired, Bool.and_eq_true, decide_eq_true_eq] at h ⊢
  exact ⟨h.1, h.2.trans hle⟩

theorem isExpired_of_record {e e' : Entry Value} (h : e'.record = e.record) (now : TimePoint) :
    isExpired e' now = isExpired e now := by
  rw [← expired_record, ← expired_record, h]

namespace System

/-- The key is stored and its deadline has not passed. -/
def Live (k : Key) (s : System P Exn) : Prop :=
  ∃ e, s.entry k = some e ∧ isExpired e s.clock = false

/-- The key is stored and its deadline has passed. -/
def Lapsed (k : Key) (s : System P Exn) : Prop :=
  ∃ e, s.entry k = some e ∧ isExpired e s.clock = true

/-- The step removes the key by `del`, or by evicting it for another key. -/
def Removes (k : Key) (s : System P Exn) (a : Action Key Value Exn) (s' : System P Exn) : Prop :=
  (∃ e, s.entry k = some e) ∧ s'.entry k = none ∧ ∃ t, a.thread = some t ∧
    (s.threads t = .del k ∨ ∃ k' v, (s.threads t).storing = some (k', v) ∧ k' ≠ k)

/-- A step from one state in which the key is live to another. -/
def LiveStep (k : Key) (s : System P Exn) (a : Action Key Value Exn) (s' : System P Exn) : Prop :=
  Step s a s' ∧ Live k s ∧ Live k s'

/-- A store that is not refused leaves its key stored, and a refused one changes nothing. -/
theorem entry_store {s : System P Exn} (R : ∃ xs, s.cache.Rep xs) (k : Key) (v : Value)
    (ttl : Option Millis) (record : Option RecordId) :
    ((s.store k v ttl record).1 = true ∧ ∃ e, (s.store k v ttl record).2.entry k = some e) ∨
      ((s.store k v ttl record).1 = false ∧ (s.store k v ttl record).2.cache = s.cache) := by
  obtain ⟨xs, R⟩ := R
  let i := shardForKey P k
  have H : (s.held k).shard.Holds P (xs i) := R.holds i
  rcases Locked.edit_setImpl H (R.card_le i) k v ttl s.clock with ⟨-, heq⟩ | ⟨hpos, ys, hedit⟩
  · right
    have hset : s.cache.set k v ttl s.clock = (false, s.cache) := ShardedCache.withLock_of_eq heq
    simp only [store, hset]
    exact ⟨trivial, trivial⟩
  · left
    obtain ⟨e, he, -⟩ := hedit.lookup_stored
    refine ⟨(Locked.holds_setImpl H (R.card_le i) k v ttl s.clock hpos).1, e, ?_⟩
    have hcache : (s.store k v ttl record).2.cache
        = s.cache.unlock i ((s.held k).setImpl P k v ttl s.clock).2 := rfl
    rw [entry_eq_of_unlock hcache, if_pos rfl]
    exact he

/-- A live key stays stored through a move, unless the move is a `del` of it or a store. -/
theorem Move.entry_kept {s s₁ : System P Exn} {t : ℕ} {pc' : Pc Key Value Exn}
    (h : Move s (s.threads t) s₁ pc') (W : s.WellFormed maxKeys) {k : Key} (hk : s.Live k)
    (hdel : s.threads t ≠ .del k) (hstore : (s.threads t).storing = none) :
    ∃ e, s₁.entry k = some e := by
  obtain ⟨e₀, he₀, hlive⟩ := hk
  obtain ⟨xs, R⟩ := W.rep
  have hsampled := W.sampled t
  generalize s.threads t = pc at *
  obtain ⟨i, l, ys, hedits, hcache⟩ := h.edits R
  rw [entry_eq_of_unlock hcache]
  split
  · next hi =>
    subst hi
    -- no cause of this move can remove the key
    have hkept : ∃ e, l.shard.map.lookup k = some e ∧ e.record = e₀.record := by
      refine hedits.invariant (I := fun q => ∃ e, q.1.shard.map.lookup k = some e ∧
        e.record = e₀.record) ?_ ⟨e₀, he₀, rfl⟩
      rintro p c q ⟨hc, -⟩ hedit ⟨e, he, hrecord⟩
      obtain ⟨e', he', hrecord'⟩ := hedit.lookup_kept he (by
          rintro rfl
          cases pc <;> simp_all [Pc.Causes]) (by
          rintro j v ttl now rfl
          cases pc <;> simp_all [Pc.Causes, Pc.storing]) (by
          rintro now rfl
          have hle : now ≤ s.clock := by
            cases pc <;> simp_all [Pc.Causes, Pc.sample]
          rw [isExpired_of_record hrecord]
          cases hexp : isExpired e₀ now with
          | false => rfl
          | true => rw [isExpired_mono hexp hle] at hlive; cases hlive)
      exact ⟨e', he', hrecord'.trans hrecord⟩
    obtain ⟨e, he, -⟩ := hkept
    exact ⟨e, he⟩
  · exact ⟨e₀, he₀⟩

/-- Storing a key does not remove it. -/
theorem Move.entry_stored {s s₁ : System P Exn} {pc pc' : Pc Key Value Exn} (h : Move s pc s₁ pc')
    (W : s.WellFormed maxKeys) {k : Key} {v : Value} (hk : s.Live k)
    (hstore : pc.storing = some (k, v)) : ∃ e, s₁.entry k = some e := by
  obtain ⟨e₀, he₀, -⟩ := hk
  have kept : ∀ ttl record, ∃ e, (s.store k v ttl record).2.entry k = some e := by
    intro ttl record
    rcases entry_store W.rep k v ttl record with ⟨-, hstored⟩ | ⟨-, hcache⟩
    · exact hstored
    · exact ⟨e₀, by rw [entry, hcache]; exact he₀⟩
  cases h with
  | set k v ttl =>
      cases hstore
      exact kept ttl none
  | loaded k ttl r v =>
      cases hstore
      exact kept ttl (some r)
  | complete k r out hp => cases (storing_of_pending hp).symm.trans hstore
  | broken k r out out' hp => cases (storing_of_pending hp).symm.trans hstore
  | _ => cases hstore

/-- Nobody registers a live key. -/
theorem Move.ne_registered {s s₁ : System P Exn} {pc pc' : Pc Key Value Exn}
    (h : Move s pc s₁ pc') {k : Key} (hk : s.Live k) (ttl : Option Millis) (r : RecordId) :
    pc' ≠ .registered k ttl r := by
  intro heq
  cases h with
  | recheckOwn k ttl l hl hfree =>
      cases heq
      obtain ⟨e, he, hlive⟩ := hk
      rcases hl with ⟨hnone, -⟩ | ⟨e', he', hexp, -⟩
      · exact absurd (hnone.symm.trans he) (by simp)
      · cases he'.symm.trans he
        exact absurd hexp (by simp [hlive])
  | call c => cases c <;> cases heq
  | sharedMiss caller | exclusiveMiss caller | exclusiveExpired caller | exclusiveHit caller =>
      cases caller <;> cases heq
  | _ => cases heq

/-- The key is live and no loader of it is about to start. -/
private def Settled (k : Key) (s : System P Exn) : Prop :=
  s.Live k ∧ ∀ t ttl r, s.threads t ≠ .registered k ttl r

/-- What ends the time in which no loader can start. -/
private theorem removes_or_lapsed {s s' : System P Exn} {a : Action Key Value Exn}
    (h : Step s a s') (W : s.WellFormed maxKeys) {k : Key} (hs : s.Settled k)
    (hs' : ¬ s'.Settled k) : s.Removes k a s' ∨ s'.Lapsed k := by
  obtain ⟨hlive, hnone⟩ := hs
  have hlapsed : ∀ e, s'.entry k = some e → (∀ t ttl r, s'.threads t ≠ .registered k ttl r) →
      s'.Lapsed k := by
    intro e he hthreads
    refine ⟨e, he, ?_⟩
    cases hexp : isExpired e s'.clock with
    | true => rfl
    | false => exact absurd ⟨⟨e, he, hexp⟩, hthreads⟩ hs'
  rcases step_cases h with ⟨now, -, -, rfl⟩ | ⟨t, s₁, pc', ha, hmove, rfl⟩
  · obtain ⟨e, he, -⟩ := hlive
    exact .inr (hlapsed e he hnone)
  · have hthreads : ∀ u ttl r, (s₁.setPc t pc').threads u ≠ .registered k ttl r := by
      intro u ttl r
      rw [threads_setPc, hmove.threads_eq]
      split
      · exact hmove.ne_registered hlive ttl r
      · exact hnone u ttl r
    cases he : s₁.entry k with
    | some e => exact .inr (hlapsed e he hthreads)
    | none =>
        left
        have hentry := hlive
        obtain ⟨e₀, he₀, -⟩ := hentry
        refine ⟨⟨e₀, he₀⟩, he, t, ha, ?_⟩
        by_cases hdel : s.threads t = .del k
        · exact .inl hdel
        · right
          cases hstore : (s.threads t).storing with
          | none =>
              obtain ⟨e, he'⟩ := hmove.entry_kept W hlive hdel hstore
              exact absurd (he.symm.trans he') (by simp)
          | some kv =>
              obtain ⟨k', v⟩ := kv
              refine ⟨k', v, rfl, ?_⟩
              rintro rfl
              obtain ⟨e, he'⟩ := hmove.entry_stored W hlive hstore
              exact absurd (he.symm.trans he') (by simp)

/-- **Single flight.** In every reachable state (a) at most one thread is in a loader of a given
key, and (b) when an owner's `set` has returned true, then in every run from there to the start of
another loader of the key, the key stays live up to a step that deletes or evicts it, or into a
state in which its deadline has passed. -/
theorem single_flight {s : System P Exn} (h : s.Reachable maxKeys) :
    (∀ t t' k ttl ttl' r r', s.threads t = .loading k ttl r → s.threads t' = .loading k ttl' r' →
      t = t') ∧
    ∀ t k ttl r v s', s.threads t = .loaded k ttl r v → Step s (.run t) s' →
      s'.threads t = .stored k r v true →
      ∀ as u t' ttl' r' u', Transition.Run Step s' as u → u.threads t' = .registered k ttl' r' →
        Step u (.run t') u' →
        s'.Lapsed k ∨ ∃ bs a cs x y, as = bs ++ a :: cs ∧
          Transition.Run (LiveStep k) s' bs x ∧ Step x a y ∧ Transition.Run Step y cs u ∧
          (x.Removes k a y ∨ y.Lapsed k) := by
  have hs := h.inFlightSound
  refine ⟨?_, ?_⟩
  · intro t t' k ttl ttl' r r' ht ht'
    have howns := SingleFlight.Board.owns_of_working (b := s.board) (congrArg Pc.role ht)
    have howns' := SingleFlight.Board.owns_of_working (b := s.board) (congrArg Pc.role ht')
    exact (hs.sound.owner_eq howns howns').1
  · intro t k ttl r v s' ht hstep hstored as u t' ttl' r' u' hrun hu _
    have hs' := hs.step hstep
    obtain ⟨s₁, pc', hmove, rfl⟩ := move_of_run hstep ht
    -- the owner's `set` has stored the key
    have hentry : ∃ e, s₁.entry k = some e := by
      cases hmove with
      | loaded k ttl r v =>
          rw [threads_self_setPc] at hstored
          rcases entry_store hs.wellFormed.rep k v ttl (some r) with ⟨-, hentry⟩ | ⟨hok, -⟩
          · exact hentry
          · rw [hok] at hstored
            cases hstored
      | complete k r out hp => cases hp
      | broken k r out out' hp => cases hp
    obtain ⟨e, he⟩ := hentry
    cases hexp : isExpired e s₁.clock with
    | true => exact .inl ⟨e, he, hexp⟩
    | false =>
        right
        -- the key's only owner is past its loader
        have hsettled : (s₁.setPc t pc').Settled k := by
          refine ⟨⟨e, he, hexp⟩, ?_⟩
          intro w ttl'' r'' hw
          have howns := SingleFlight.Board.owns_of_working (b := (s₁.setPc t pc').board)
            (congrArg Pc.role hstored)
          have howns' := SingleFlight.Board.owns_of_working (b := (s₁.setPc t pc').board)
            (congrArg Pc.role hw)
          obtain ⟨rfl, -⟩ := hs'.sound.owner_eq howns howns'
          rw [hstored] at hw
          cases hw
        obtain ⟨bs, a, cs, x, y, heq, hbs, hx, hxy, hy, hcs⟩ :=
          hrun.exists_exit hsettled fun hu' => hu'.2 t' ttl' r' hu
        have W := (hs'.run (hbs.mono fun _ _ _ h => h.1)).wellFormed
        exact ⟨bs, a, cs, x, y, heq, hbs.mono fun _ _ _ h => ⟨h.1, h.2.1.1, h.2.2.1⟩, hxy, hcs,
          removes_or_lapsed hxy W hx hy⟩

/-- A caller loads a key up to its `set`. -/
private def loadedOnce : List (Action ℕ ℕ Unit) :=
  [.call 0 (.getOrCompute 1 none), .run 0, .run 0, .run 0, .run 0, .loaderReturn 0 5]

/-- The key is deleted and loaded again. -/
private def reload : List (Action ℕ ℕ Unit) :=
  [.run 0, .run 0, .call 1 (.del 1), .run 1, .call 2 (.getOrCompute 1 none), .run 2, .run 2, .run 2]

theorem single_flight_reload :
    ∃ s' u : System CacheParams.twoShards Unit, Transition.Run Step s' reload u ∧
      u.threads 2 = .registered 1 none 1 ∧
      (s'.Lapsed 1 ∨ ∃ bs a cs x y, reload = bs ++ a :: cs ∧
        Transition.Run (LiveStep 1) s' bs x ∧ Step x a y ∧ Transition.Run Step y cs u ∧
        (x.Removes 1 a y ∨ y.Lapsed 1)) := by
  let s := (Transition.exec step loadedOnce (init CacheParams.twoShards Unit 3 0)).get (by decide)
  have hs : s.Reachable 3 := reachable_of_exec (Option.some_get _).symm
  let s' := (step (.run 0) s).get (by decide)
  have hstep : Step s (.run 0) s' := (Option.some_get _).symm
  let u := (Transition.exec step reload s').get (by decide)
  have hrun : Transition.Run Step s' reload u := Transition.run_of_exec (Option.some_get _).symm
  let u' := (step (.run 2) u).get (by decide)
  have hstart : Step u (.run 2) u' := (Option.some_get _).symm
  have hloaded : s.threads 0 = .loaded 1 none 0 5 := by decide
  have hstored : s'.threads 0 = .stored 1 0 5 true := by decide
  have hregistered : u.threads 2 = .registered 1 none 1 := by decide
  exact ⟨s', u, hrun, hregistered, (single_flight hs).2 0 1 none 0 5 s' hloaded hstep hstored
    reload u 2 none 1 u' hrun hregistered hstart⟩

end System
end MiniRedis
