import MiniRedis.Benchmark.Baseline

/-!
# What the baseline's futures guarantee

Every step of the shared baseline is a step of the single-flight protocol, and keeps the map and the
list of the cache in order. So in every interleaving one load of a key is in flight, callers with one
future get what its owner's loader has delivered, and nothing stays in flight. What the baseline lacks
is the second lookup: it may load a key that is stored, but only if a thread has stored the key after
the caller's own lookup.
-/
namespace MiniRedis
variable {Key Value Exn : Type}

namespace BaselinePc

/-- The outcome a thread is about to publish. -/
def pending : BaselinePc Key Value Exn → Option (Key × RecordId × Except Exn Value)
  | .stored k r v => some (k, r, .ok v)
  | .threw k r exn => some (k, r, .error exn)
  | _ => none

/-- What a thread has to do with the futures. -/
def role : BaselinePc Key Value Exn → SingleFlight.Role Key (Except Exn Value)
  | .loading k _ r | .loaded k _ r _ | .storing k _ r _ _ | .stored k r _ | .threw k r _ =>
      .working k r
  | .completed k r out => .completed k r out
  | .waiting false _ r => .waiting r
  | _ => .outside

/-- The outcome an owner has got from its loader and will publish or has published. -/
def outcome : BaselinePc Key Value Exn → Option (RecordId × Except Exn Value)
  | .loaded _ _ r v | .storing _ _ r v _ | .stored _ r v => some (r, .ok v)
  | .threw _ r exn => some (r, .error exn)
  | .completed _ r out => some (r, out)
  | _ => none

/-- The thread is in `get_or_compute`. -/
def Computing : BaselinePc Key Value Exn → Prop
  | .getSample (.compute _) _ | .get (.compute _) _ _ => True
  | .join .. | .loading .. | .loaded .. | .storing .. | .stored .. | .threw .. | .completed ..
  | .waiting .. => True
  | _ => False

theorem role_of_pending {pc : BaselinePc Key Value Exn} {k : Key} {r : RecordId}
    {out : Except Exn Value} (h : pc.pending = some (k, r, out)) : pc.role = .working k r := by
  cases pc <;> simp [pending] at h <;> simp [role, h]

theorem outcome_of_pending {pc : BaselinePc Key Value Exn} {k : Key} {r : RecordId}
    {out : Except Exn Value} (h : pc.pending = some (k, r, out)) : pc.outcome = some (r, out) := by
  cases pc <;> simp [pending] at h <;> simp [outcome, h]

/-- An owner that has its outcome is at work or has published it. -/
theorem role_of_outcome {pc : BaselinePc Key Value Exn} {r : RecordId} {out : Except Exn Value}
    (h : pc.outcome = some (r, out)) :
    (∃ k, pc.role = .working k r) ∨ ∃ k, pc.role = .completed k r out := by
  cases pc with
  | loaded k ttl r' v | storing k ttl r' v now | stored k r' v | threw k r' exn =>
      cases h
      exact .inl ⟨k, rfl⟩
  | completed k r' out' =>
      cases h
      exact .inr ⟨k, rfl⟩
  | _ => cases h

@[simp] theorem role_start (c : WorkloadCall Key Value) :
    (c.start : BaselinePc Key Value Exn).role = .outside := by
  cases c <;> rfl

@[simp] theorem role_afterGet (k : Key) (found : Option Value) (caller : Caller) :
    (afterGet k found caller : BaselinePc Key Value Exn).role = .outside := by
  cases caller <;> cases found <;> rfl

end BaselinePc

variable [DecidableEq Key]

namespace BaselineSystem

/-- Everything a thread at `pc` can do: it leaves the shared state as `s₁` and goes to `pc'`. -/
inductive Move (s : BaselineSystem Key Value Exn) :
    BaselinePc Key Value Exn → BaselineSystem Key Value Exn → BaselinePc Key Value Exn → Prop
  | call (c : WorkloadCall Key Value) : Move s .idle s c.start
  | getSample (caller k) : Move s (.getSample caller k) s (.get caller k s.clock)
  | get (caller k now) :
      Move s (.get caller k now) { s with cache := (s.cache.get k now).2 }
        (.afterGet k (s.cache.get k now).1 caller)
  | setSample (k v ttl) : Move s (.setSample k v ttl) s (.set k v ttl s.clock)
  | set (k v ttl now) :
      Move s (.set k v ttl now) { s with cache := (s.cache.set k v ttl now).2 }
        (.done (.stored (s.cache.set k v ttl now).1) none)
  | del (k) :
      Move s (.del k) { s with cache := (s.cache.del k).2 }
        (.done (.deleted (s.cache.del k).1) none)
  | joined (k ttl r) (hr : s.inFlight.lookup k = some r) :
      Move s (.join k ttl) s (.waiting false k r)
  | own (k ttl) (hfree : s.inFlight.lookup k = none) :
      Move s (.join k ttl)
        { s with
          inFlight := s.inFlight.insert k s.nextRecord
          nextRecord := s.nextRecord + 1 }
        (.loading k ttl s.nextRecord)
  | loaderReturn (k ttl r v) : Move s (.loading k ttl r) s (.loaded k ttl r v)
  | loaderThrow (k ttl r exn) : Move s (.loading k ttl r) s (.threw k r exn)
  | loaded (k ttl r v) : Move s (.loaded k ttl r v) s (.storing k ttl r v s.clock)
  | storing (k ttl r v now) :
      Move s (.storing k ttl r v now) { s with cache := (s.cache.set k v ttl now).2 }
        (.stored k r v)
  | complete {pc} (k r out) (hpc : pc.pending = some (k, r, out)) (hopen : s.promises r = none) :
      Move s pc { s with promises := Function.update s.promises r (some out) } (.completed k r out)
  | broken {pc} (k r out out') (hpc : pc.pending = some (k, r, out))
      (hdone : s.promises r = some out') : Move s pc s .broken
  | unregister (k r out) :
      Move s (.completed k r out) { s with inFlight := s.inFlight.erase k } (.waiting true k r)
  | wake (owner k r out) (hout : s.promises r = some out) :
      Move s (.waiting owner k r) s (.done (.computed out) (some (k, r)))
  | count : Move s .count s (.done (.counted s.cache.map.card) none)
  | leave (result source) : Move s (.done result source) s .idle

variable {s s₁ s' : BaselineSystem Key Value Exn} {pc pc' : BaselinePc Key Value Exn} {t : ℕ}

private theorem moves_complete {k : Key} {r : RecordId} {out : Except Exn Value}
    (hpc : pc.pending = some (k, r, out)) :
    ∃ s₁ pc', Move s pc s₁ pc' ∧ s.complete t k r out = s₁.setPc t pc' := by
  cases hp : s.promises r with
  | none => exact ⟨_, _, .complete k r out hpc hp, by simp only [complete, hp]⟩
  | some out' => exact ⟨_, _, .broken k r out out' hpc hp, by simp only [complete, hp]⟩

private theorem moves_runThread (h : s.runThread t = some s') :
    ∃ s₁ pc', Move s (s.threads t) s₁ pc' ∧ s' = s₁.setPc t pc' := by
  unfold runThread at h
  split at h
  · cases h
  · cases h
  · cases h
  · next caller k hpc =>
    exact ⟨_, _, hpc ▸ .getSample caller k, (Option.some.inj h).symm⟩
  · next caller k now hpc =>
    exact ⟨_, _, hpc ▸ .get caller k now, (Option.some.inj h).symm⟩
  · next k v ttl hpc => exact ⟨_, _, hpc ▸ .setSample k v ttl, (Option.some.inj h).symm⟩
  · next k v ttl now hpc => exact ⟨_, _, hpc ▸ .set k v ttl now, (Option.some.inj h).symm⟩
  · next k hpc => exact ⟨_, _, hpc ▸ .del k, (Option.some.inj h).symm⟩
  · next k ttl hpc =>
    split at h
    · next r hr => exact ⟨_, _, hpc ▸ .joined k ttl r hr, (Option.some.inj h).symm⟩
    · next hfree => exact ⟨_, _, hpc ▸ .own k ttl hfree, (Option.some.inj h).symm⟩
  · next k ttl r v hpc => exact ⟨_, _, hpc ▸ .loaded k ttl r v, (Option.some.inj h).symm⟩
  · next k ttl r v now hpc => exact ⟨_, _, hpc ▸ .storing k ttl r v now, (Option.some.inj h).symm⟩
  · next k r v hpc =>
    have hpending : (BaselinePc.stored k r v : BaselinePc Key Value Exn).pending = some (k, r, .ok v) := rfl
    obtain ⟨s₁, pc', hmove, heq⟩ := moves_complete (s := s) (t := t) hpending
    exact ⟨s₁, pc', hpc ▸ hmove, (Option.some.inj h).symm.trans heq⟩
  · next k r exn hpc =>
    have hpending : (BaselinePc.threw k r exn : BaselinePc Key Value Exn).pending = some (k, r, .error exn) := rfl
    obtain ⟨s₁, pc', hmove, heq⟩ := moves_complete (s := s) (t := t) hpending
    exact ⟨s₁, pc', hpc ▸ hmove, (Option.some.inj h).symm.trans heq⟩
  · next k r out hpc => exact ⟨_, _, hpc ▸ .unregister k r out, (Option.some.inj h).symm⟩
  · next owner k r hpc =>
    obtain ⟨out, hout, rfl⟩ := Option.map_eq_some_iff.mp h
    exact ⟨_, _, hpc ▸ .wake owner k r out hout, rfl⟩
  · next hpc => exact ⟨_, _, hpc ▸ .count, (Option.some.inj h).symm⟩
  · next result source hpc => exact ⟨_, _, hpc ▸ .leave result source, (Option.some.inj h).symm⟩

/-- The transition relation. -/
def Step (s : BaselineSystem Key Value Exn) (a : BaselineAction Key Value Exn)
    (s' : BaselineSystem Key Value Exn) : Prop := s.step a = some s'

/-- The runs of a baseline for `maxKeys` keys. -/
def Reachable (maxKeys : ℕ) (s : BaselineSystem Key Value Exn) : Prop :=
  ∃ now as, Transition.Run Step (init maxKeys now) as s

/-- **Everything a step can do**: let time pass, or move one thread. Only a thread's own step uses the
cache. -/
theorem step_cases {a : BaselineAction Key Value Exn} (h : Step s a s') :
    (∃ now, s.clock ≤ now ∧ s' = { s with clock := now }) ∨
      ∃ t s₁ pc', Move s (s.threads t) s₁ pc' ∧ s' = s₁.setPc t pc' ∧
        (a = .run t ∨ s₁.cache = s.cache) := by
  cases a with
  | tick now =>
      simp only [Step, step] at h
      split at h
      · next hle => exact .inl ⟨now, hle, (Option.some.inj h).symm⟩
      · cases h
  | call t c =>
      simp only [Step, step] at h
      split at h
      · next hpc => exact .inr ⟨t, _, _, hpc ▸ .call c, (Option.some.inj h).symm, .inr rfl⟩
      · cases h
  | run t =>
      obtain ⟨s₁, pc', hmove, heq⟩ := moves_runThread h
      exact .inr ⟨t, s₁, pc', hmove, heq, .inl rfl⟩
  | loaderReturn t v =>
      simp only [Step, step] at h
      split at h
      · next k ttl r hpc =>
        exact .inr ⟨t, _, _, hpc ▸ .loaderReturn k ttl r v, (Option.some.inj h).symm, .inr rfl⟩
      · cases h
  | loaderThrow t exn =>
      simp only [Step, step] at h
      split at h
      · next k ttl r hpc =>
        exact .inr ⟨t, _, _, hpc ▸ .loaderThrow k ttl r exn, (Option.some.inj h).symm, .inr rfl⟩
      · cases h

omit [DecidableEq Key] in
@[simp] theorem threads_setPc (u : ℕ) :
    (s.setPc t pc).threads u = if u = t then pc else s.threads u := Function.update_apply ..

theorem Move.threads_eq (h : Move s pc s₁ pc') : s₁.threads = s.threads := by cases h <;> rfl

/-! ## The futures -/

/-- The part of the state that single flight is about. -/
def board (s : BaselineSystem Key Value Exn) : SingleFlight.Board ℕ Key (Except Exn Value) where
  flight := fun k => s.inFlight.lookup k
  promise := s.promises
  next := s.nextRecord
  role := fun t => (s.threads t).role

theorem board_setPc (t : ℕ) (pc : BaselinePc Key Value Exn) (s : BaselineSystem Key Value Exn) :
    (s.setPc t pc).board = s.board.setRole t pc.role := by
  have hrole : (fun u => ((s.setPc t pc).threads u).role)
      = Function.update (fun u => (s.threads u).role) t pc.role := by
    funext u
    rw [threads_setPc, Function.update_apply]
    split <;> rfl
  simp only [board, SingleFlight.Board.setRole, hrole]
  rfl

/-- **A move is a step of the single-flight protocol.** -/
theorem Move.board_step (h : Move s (s.threads t) s₁ pc') (hs : s.board.Sound) :
    SingleFlight.Board.Step t s.board (s₁.setPc t pc').board := by
  generalize hpc : s.threads t = pc at h
  have hrole : s.board.role t = pc.role := congrArg BaselinePc.role hpc
  have quiet : s₁.board = s.board → pc'.role = pc.role →
      SingleFlight.Board.Step t s.board (s₁.setPc t pc').board := by
    intro hboard hrole'
    have hself : s.board.setRole t pc'.role = s.board := by
      rw [hrole', ← hrole, SingleFlight.Board.setRole, Function.update_eq_self]
    rw [board_setPc, hboard, hself]
    exact .idle _
  cases h with
  | joined k ttl r hr =>
      rw [board_setPc]
      exact .join _ k r hrole hr
  | own k ttl hfree =>
      have hflight : (fun j => (s.inFlight.insert k s.nextRecord).lookup j) =
          Function.update s.board.flight k (some s.nextRecord) := by
        funext j
        by_cases hj : j = k
        · rw [hj, AList.lookup_insert, Function.update_self]
        · rw [AList.lookup_insert_ne hj, Function.update_of_ne hj]
          rfl
      have hboard : (setPc t (.loading k ttl s.nextRecord)
          { s with
            inFlight := s.inFlight.insert k s.nextRecord
            nextRecord := s.nextRecord + 1 }).board = s.board.register t k := by
        rw [board_setPc, board]
        simp only [SingleFlight.Board.register, SingleFlight.Board.setRole]
        congr 1
      rw [hboard]
      exact .register _ k hrole hfree
  | complete k r out hp hopen =>
      rw [board_setPc]
      exact .complete _ k r out (hrole.trans (BaselinePc.role_of_pending hp))
  | broken k r out out' hp hdone =>
      have hopen := hs.working_open t k r (hrole.trans (BaselinePc.role_of_pending hp))
      exact absurd (hopen.symm.trans hdone) (by simp)
  | unregister k r out =>
      have hflight : (fun j => (s.inFlight.erase k).lookup j) =
          Function.update s.board.flight k none := by
        funext j
        by_cases hj : j = k
        · rw [hj, AList.lookup_erase, Function.update_self]
        · rw [AList.lookup_erase_ne hj, Function.update_of_ne hj]
          rfl
      have hboard : (setPc t (.waiting true k r)
          { s with inFlight := s.inFlight.erase k }).board = s.board.unregister t k := by
        rw [board_setPc, board]
        simp only [SingleFlight.Board.unregister, SingleFlight.Board.setRole]
        congr 1
      rw [hboard]
      exact .unregister _ k r out hrole
  | wake owner k r out hout =>
      cases owner with
      | true => exact quiet rfl rfl
      | false =>
          rw [board_setPc]
          exact .wake _ r out hrole hout
  | call c => exact quiet rfl (BaselinePc.role_start c)
  | get caller k now => exact quiet rfl (BaselinePc.role_afterGet ..)
  | _ => exact quiet rfl rfl

/-- What a thread has learnt from a promise is what the promise holds. -/
def Learnt (s : BaselineSystem Key Value Exn) : BaselinePc Key Value Exn → Prop
  | .waiting true _ r => ∃ out, s.promises r = some out
  | .done result (some (_, r)) => ∃ out, result = .computed out ∧ s.promises r = some out
  | _ => True

/-- What holds of every state the baseline can be in. -/
structure Sound (maxKeys : ℕ) (s : BaselineSystem Key Value Exn) : Prop where
  sound : s.board.Sound
  unbroken : ∀ t, s.threads t ≠ .broken
  learnt : ∀ t, s.Learnt (s.threads t)
  keys_eq : s.cache.maxKeys = maxKeys
  linked : ∃ xs, s.cache.Holds xs ∧ xs.card ≤ maxKeys

theorem Move.ne_broken (h : Move s (s.threads t) s₁ pc') (hs : s.board.Sound) :
    pc' ≠ .broken := by
  generalize hpc : s.threads t = pc at h
  cases h with
  | broken k r out out' hp hdone =>
      have hrole : s.board.role t = .working k r :=
        (congrArg BaselinePc.role hpc).trans (BaselinePc.role_of_pending hp)
      exact absurd ((hs.working_open t k r hrole).symm.trans hdone) (by simp)
  | call c => cases c <;> simp [WorkloadCall.start]
  | get caller k now =>
      cases caller with
      | client => simp [BaselinePc.afterGet]
      | compute ttl => cases (s.cache.get k now).1 <;> simp [BaselinePc.afterGet]
  | _ => simp

/-- A thread learns an outcome from the promise that holds it. -/
theorem Move.learnt (h : Move s (s.threads t) s₁ pc') (hs : s.board.Sound) :
    s₁.Learnt pc' := by
  generalize hpc : s.threads t = pc at h
  cases h with
  | unregister k r out =>
      have hrole : s.board.role t = .completed k r out := congrArg BaselinePc.role hpc
      exact ⟨out, hs.completed_holds t k r out hrole⟩
  | wake owner k r out hout => exact ⟨out, rfl, hout⟩
  | call c => cases c <;> trivial
  | get caller k now =>
      cases caller with
      | client => trivial
      | compute ttl => cases (s.cache.get k now).1 <;> trivial
  | _ => trivial

omit [DecidableEq Key] in
/-- Promises keep their outcomes, so nobody learns anything wrong later. -/
theorem Learnt.mono (h : s.Learnt pc)
    (hkept : ∀ r out, s.promises r = some out → s'.promises r = some out) : s'.Learnt pc := by
  cases pc with
  | waiting owner k r =>
      cases owner with
      | true =>
          obtain ⟨out, hout⟩ := h
          exact ⟨out, hkept r out hout⟩
      | false => trivial
  | done result source =>
      cases source with
      | some x =>
          obtain ⟨out, hresult, hout⟩ := h
          exact ⟨out, hresult, hkept _ out hout⟩
      | none => trivial
  | _ => trivial

/-- A move leaves the cache with its bound, a map and a list that represent a recency list. -/
theorem Move.linked {maxKeys : ℕ} (h : Move s pc s₁ pc') (hkeys : s.cache.maxKeys = maxKeys)
    (hlinked : ∃ xs, s.cache.Holds xs ∧ xs.card ≤ maxKeys) :
    s₁.cache.maxKeys = maxKeys ∧ ∃ xs, s₁.cache.Holds xs ∧ xs.card ≤ maxKeys := by
  obtain ⟨xs, H, hcard⟩ := hlinked
  cases h with
  | get caller k now =>
      obtain ⟨-, H', hkept⟩ := SingleLockCache.holds_get H k now
      exact ⟨hkept.trans hkeys, _, H', (card_lookedUp_le now k xs).trans hcard⟩
  | set k v ttl now | storing k ttl r v now =>
      subst hkeys
      obtain ⟨H', hkept⟩ := SingleLockCache.holds_set H hcard k v ttl now
      exact ⟨hkept, _, H', RecencyList.card_put_le _ _ _ hcard⟩
  | del k =>
      obtain ⟨-, H', hkept⟩ := SingleLockCache.holds_del H k
      exact ⟨hkept.trans hkeys, _, H', (AList.card_erase_le xs k).trans hcard⟩
  | _ => exact ⟨hkeys, xs, H, hcard⟩

theorem Sound.step {maxKeys : ℕ} {a : BaselineAction Key Value Exn} (h : Step s a s')
    (hs : s.Sound maxKeys) : s'.Sound maxKeys := by
  rcases step_cases h with ⟨now, -, rfl⟩ | ⟨t, s₁, pc', hmove, rfl, -⟩
  · exact ⟨hs.sound, hs.unbroken, fun t => (hs.learnt t).mono fun _ _ h => h, hs.keys_eq,
      hs.linked⟩
  · have hboard := hmove.board_step hs.sound
    obtain ⟨hkeys, hlinked⟩ := hmove.linked hs.keys_eq hs.linked
    refine ⟨hboard.sound hs.sound, ?_, ?_, hkeys, hlinked⟩
    · intro u
      rw [threads_setPc, hmove.threads_eq]
      split
      · exact hmove.ne_broken hs.sound
      · exact hs.unbroken u
    · intro u
      rw [threads_setPc, hmove.threads_eq]
      split
      · exact (hmove.learnt hs.sound).mono fun _ _ h => h
      · exact (hs.learnt u).mono fun r out hp => hboard.promise_stable hs.sound hp

theorem Reachable.sound {maxKeys : ℕ} (h : s.Reachable maxKeys) : s.Sound maxKeys := by
  obtain ⟨now, as, hrun⟩ := h
  refine hrun.invariant (fun _ _ _ hstep hs => hs.step hstep) ?_
  exact ⟨SingleFlight.Board.sound_empty, fun _ h => (by cases h), fun _ => trivial, rfl,
    ∅, ListedMap.empty, Nat.zero_le _⟩

/-! ## Agreement on an outcome -/

/-- What holds of one step holds of a run. -/
theorem Sound.run {maxKeys : ℕ} {as : List (BaselineAction Key Value Exn)}
    (h : Transition.Run Step s as s') (hs : s.Sound maxKeys) : s'.Sound maxKeys :=
  h.invariant (fun _ _ _ hstep hs => hs.step hstep) hs

/-- A property that each step of a sound baseline preserves. -/
theorem Sound.preserves {maxKeys : ℕ} {Q : BaselineSystem Key Value Exn → Prop}
    (hstep : ∀ x a y, Step x a y → x.Sound maxKeys → Q x → Q y)
    {as : List (BaselineAction Key Value Exn)} (h : Transition.Run Step s as s')
    (hs : s.Sound maxKeys) (hQ : Q s) : Q s' :=
  h.invariant_under (fun _ _ _ hxy hx => hx.step hxy) hstep hs hQ

theorem board_step_or_eq {maxKeys : ℕ} {a : BaselineAction Key Value Exn} (h : Step s a s')
    (hs : s.Sound maxKeys) :
    s'.board = s.board ∨ ∃ t, SingleFlight.Board.Step t s.board s'.board := by
  rcases step_cases h with ⟨now, -, rfl⟩ | ⟨t, s₁, pc', hmove, rfl, -⟩
  · exact .inl rfl
  · exact .inr ⟨t, hmove.board_step hs.sound⟩

theorem promise_stable {maxKeys : ℕ} {as : List (BaselineAction Key Value Exn)}
    (h : Transition.Run Step s as s') (hs : s.Sound maxKeys) {r : RecordId}
    {out : Except Exn Value} (hp : s.promises r = some out) : s'.promises r = some out := by
  refine Sound.preserves (Q := fun x => x.board.promise r = some out) ?_ h hs hp
  intro x a y hxy hx hp
  rcases board_step_or_eq hxy hx with heq | ⟨t, hboard⟩
  · rw [heq]
    exact hp
  · exact hboard.promise_stable hx.sound hp

/-- Who owns an old record at the end of a run owned it at its beginning. -/
theorem owns_old {maxKeys : ℕ} {as : List (BaselineAction Key Value Exn)}
    (h : Transition.Run Step s as s') (hs : s.Sound maxKeys) {r : RecordId}
    (hr : r < s.nextRecord) {k : Key} (ht : (s'.threads t).role.owns = some (k, r)) :
    (s.threads t).role.owns = some (k, r) := by
  have hend : r < s'.board.next ∧
      ((s'.board.role t).owns = some (k, r) → (s.board.role t).owns = some (k, r)) := by
    refine Sound.preserves (Q := fun x => r < x.board.next ∧
      ((x.board.role t).owns = some (k, r) → (s.board.role t).owns = some (k, r))) ?_ h hs ⟨hr, id⟩
    rintro x a y hxy hx ⟨hlt, hold⟩
    rcases board_step_or_eq hxy hx with heq | ⟨u, hboard⟩
    · rw [heq]
      exact ⟨hlt, hold⟩
    · exact ⟨hlt.trans_le hboard.next_mono, fun ht => hold (hboard.owns_old hlt ht)⟩
  exact hend.2 ht

/-- An outcome that is known and a promise that is completed agree. -/
theorem outcome_eq_promise {maxKeys : ℕ} (hs : s.Sound maxKeys) {r : RecordId}
    {out out' : Except Exn Value} (ht : (s.threads t).outcome = some (r, out))
    (hp : s.promises r = some out') : out = out' := by
  rcases BaselinePc.role_of_outcome ht with ⟨k, hrole⟩ | ⟨k, hrole⟩
  · exact absurd ((hs.sound.working_open t k r hrole).symm.trans hp) (by simp)
  · exact Option.some.inj ((hs.sound.completed_holds t k r out hrole).symm.trans hp)

/-- An owner keeps the outcome it has got until it has published it. -/
theorem Move.outcome (h : Move s (s.threads t) s₁ pc') (hs : s.board.Sound) {r : RecordId}
    {out : Except Exn Value} (ht : (s.threads t).outcome = some (r, out)) :
    s₁.promises r = some out ∨ pc'.outcome = some (r, out) := by
  generalize hpc : s.threads t = pc at h ht
  cases h with
  | loaded | storing => exact .inr ht
  | complete k r' out' hp hopen =>
      rw [BaselinePc.outcome_of_pending hp] at ht
      cases ht
      exact .inl (Function.update_self ..)
  | broken k r' out' out'' hp hdone =>
      have hrole : s.board.role t = .working k r' :=
        (congrArg BaselinePc.role hpc).trans (BaselinePc.role_of_pending hp)
      exact absurd ((hs.working_open t k r' hrole).symm.trans hdone) (by simp)
  | unregister k r' out' =>
      cases ht
      exact .inl (hs.completed_holds t k _ _ (congrArg BaselinePc.role hpc))
  | _ => cases ht

/-- The owner of a record publishes the outcome it has got. -/
theorem published {maxKeys : ℕ} {as : List (BaselineAction Key Value Exn)}
    (h : Transition.Run Step s as s') (hs : s.Sound maxKeys) {r : RecordId}
    {out : Except Exn Value} (ht : (s.threads t).outcome = some (r, out)) :
    s'.promises r = some out ∨ (s'.threads t).outcome = some (r, out) := by
  refine Sound.preserves (Q := fun x => x.promises r = some out ∨
    (x.threads t).outcome = some (r, out)) ?_ h hs (.inr ht)
  rintro x a y hxy hx (hp | ht)
  · exact .inl (promise_stable (.cons hxy (.nil y)) hx hp)
  · rcases step_cases hxy with ⟨now, -, rfl⟩ | ⟨u, x₁, pc', hmove, rfl, -⟩
    · exact .inr ht
    · rw [threads_setPc, hmove.threads_eq]
      by_cases htu : t = u
      · subst htu
        rw [if_pos rfl]
        exact hmove.outcome hx.sound ht
      · rw [if_neg htu]
        exact .inr ht

/-- Who completes a promise is the owner of the record. -/
theorem completed_of_step {a : BaselineAction Key Value Exn} (h : Step s a s') {r : RecordId}
    {out : Except Exn Value} (hopen : s.promises r = none) (hp : s'.promises r = some out) :
    ∃ t k, (s.threads t).role = .working k r ∧ s'.threads t = .completed k r out := by
  rcases step_cases h with ⟨now, -, rfl⟩ | ⟨t, s₁, pc', hmove, rfl, -⟩
  · exact absurd (hopen.symm.trans hp) (by simp)
  · generalize hpc : s.threads t = pc at hmove
    change s₁.promises r = some out at hp
    cases hmove with
    | complete k r' out' hpending hopen' =>
        change Function.update s.promises r' (some out') r = some out at hp
        by_cases hr : r = r'
        · subst hr
          rw [Function.update_self, Option.some.injEq] at hp
          subst hp
          exact ⟨t, k, (congrArg BaselinePc.role hpc).trans (BaselinePc.role_of_pending hpending),
            by simp⟩
        · rw [Function.update_of_ne hr] at hp
          exact absurd (hopen.symm.trans hp) (by simp)
    | _ => exact absurd (hopen.symm.trans hp) (by simp)

/-- A promise that was open at the start of a run was completed by the owner it had there. -/
theorem completed_by_owner {maxKeys : ℕ} {as : List (BaselineAction Key Value Exn)}
    (h : Transition.Run Step s as s') (hs : s.Sound maxKeys) {k : Key} {r : RecordId}
    {out : Except Exn Value} (ht : (s.threads t).role = .working k r)
    (hout : s'.promises r = some out) :
    ∃ bs cs x, as = bs ++ cs ∧ Transition.Run Step s bs x ∧ Transition.Run Step x cs s' ∧
      x.threads t = .completed k r out := by
  have hopen : s.promises r = none := hs.sound.working_open t k r ht
  have howns := SingleFlight.Board.owns_of_working (b := s.board) ht
  obtain ⟨bs, a, cs, x, y, rfl, hbs, hx, hxy, hy, hcs⟩ :=
    h.exists_exit (P := fun x => x.promises r = none) hopen (by simp [hout])
  replace hbs : Transition.Run Step s bs x := hbs.mono fun _ _ _ h => h.1
  obtain ⟨out', hout'⟩ := Option.ne_none_iff_exists'.mp hy
  obtain ⟨t', k', hrole, hdone⟩ := completed_of_step hxy hx hout'
  have hold := owns_old hbs hs (hs.sound.owned_created t k r howns) (t := t') (k := k')
    (by rw [hrole]; rfl)
  obtain ⟨rfl, rfl⟩ := hs.sound.owner_unique t' t k' k r hold howns
  have hlast := promise_stable hcs ((hs.run hbs).step hxy) hout'
  obtain rfl : out' = out := Option.some.inj (hlast.symm.trans hout)
  exact ⟨bs ++ [a], cs, y, by simp, hbs.snoc hxy, hcs, hdone⟩

/-- A waiting caller returns what the promise of its record holds. -/
theorem waiting_returns {owner : Bool} {k : Key} {r : RecordId}
    (hpc : s.threads t = .waiting owner k r) (h : Step s (.run t) s') :
    ∃ out, s.promises r = some out ∧ s'.threads t = .done (.computed out) (some (k, r)) := by
  simp only [Step, step, runThread, hpc] at h
  obtain ⟨out, hout, rfl⟩ := Option.map_eq_some_iff.mp h
  exact ⟨out, hout, by simp⟩

/-- What the futures guarantee in a state, looking at what comes after it. -/
structure Flights (maxKeys : ℕ) (s : BaselineSystem Key Value Exn) : Prop where
  /-- Of the loads of one key at most one is in flight, from its registration until its owner has
  published the outcome and taken it off. -/
  one_load : ∀ t t' k r r', (s.threads t).role.owns = some (k, r) →
    (s.threads t').role.owns = some (k, r') → t = t' ∧ r = r'
  one_owner : ∀ k r, s.inFlight.lookup k = some r → ∃! t, (s.threads t).role.owns = some (k, r)
  /-- Nobody else owns the record later. -/
  same_owner : ∀ as u t t' k k' r, Transition.Run Step s as u →
    (s.threads t).role.owns = some (k, r) → (u.threads t').role.owns = some (k', r) →
    t' = t ∧ k' = k
  /-- A future that is open gets its outcome from its owner, … -/
  completed_by_owner : ∀ as u t k r out, (s.threads t).role = .working k r →
    Transition.Run Step s as u → u.promises r = some out →
    ∃ bs cs x, as = bs ++ cs ∧ Transition.Run Step s bs x ∧ Transition.Run Step x cs u ∧
      x.threads t = .completed k r out
  /-- … keeps it, … -/
  completed_once : ∀ as u r out, Transition.Run Step s as u → s.promises r = some out →
    u.promises r = some out
  /-- … and all who read it, the owner too, return what the owner has got from its loader. -/
  one_outcome : ∀ as u u' t t' owner k r out, (s.threads t).outcome = some (r, out) →
    Transition.Run Step s as u → u.threads t' = .waiting owner k r → Step u (.run t') u' →
    u'.threads t' = .done (.computed out) (some (k, r))
  returned_agree : ∀ as u t t' k k' r result result', s.threads t = .done result (some (k, r)) →
    Transition.Run Step s as u → u.threads t' = .done result' (some (k', r)) → result = result'
  /-- The owner does not wait when it reads its own future. -/
  owner_ready : ∀ t k r, s.threads t = .waiting true k r → ∃ s', Step s (.run t) s'
  /-- Who waits, waits for a future that is completed or for somebody who is working on it. -/
  served : ∀ t k r, s.threads t = .waiting false k r →
    (∃ s', Step s (.run t) s') ∨ ∃ t' k', (s.threads t').role = .working k' r
  unbroken : ∀ t, s.threads t ≠ .broken
  nothing_left : (∀ t, ¬ (s.threads t).Computing) → s.inFlight.entries = []
  /-- The map and the list represent a recency list within the bound. -/
  linked : ∃ xs, s.cache.Holds xs ∧ xs.card ≤ maxKeys

omit [DecidableEq Key] in
theorem computing_of_owns {k : Key} {r : RecordId} (h : pc.role.owns = some (k, r)) :
    pc.Computing := by
  cases pc <;> trivial

theorem step_of_waiting {owner : Bool} {k : Key} {r : RecordId} {out : Except Exn Value}
    (hpc : s.threads t = .waiting owner k r) (hout : s.promises r = some out) :
    ∃ s', Step s (.run t) s' :=
  ⟨s.setPc t (.done (.computed out) (some (k, r))), by simp [Step, step, runThread, hpc, hout]⟩

/-- **The baseline flies single too.** In every state that any interleaving of the baseline's calls
can reach, one load of a key is in flight, all callers with one future get what its owner has got from
its loader, the owner never waits, nobody waits in vain, nothing is in flight when no
`get_or_compute` is in progress, and the cache is in order and within its bound. -/
theorem baseline_flights {maxKeys : ℕ} (h : s.Reachable maxKeys) : s.Flights maxKeys := by
  have hs := h.sound
  constructor
  case one_load =>
    intro t t' k r r' ht ht'
    exact hs.sound.owner_eq ht ht'
  case one_owner =>
    intro k r hk
    obtain ⟨t, ht⟩ := hs.sound.board_owned k r hk
    exact ⟨t, ht, fun t' ht' => (hs.sound.owner_unique t' t k k r ht' ht).1⟩
  case same_owner =>
    intro as u t t' k k' r hrun ht ht'
    have hold := owns_old hrun hs (hs.sound.owned_created t k r ht) ht'
    exact hs.sound.owner_unique t' t k' k r hold ht
  case completed_by_owner =>
    intro as u t k r out ht hrun hu
    exact completed_by_owner hrun hs ht hu
  case completed_once =>
    intro as u r out hrun hp
    exact promise_stable hrun hs hp
  case one_outcome =>
    intro as u u' t t' owner k r out ht hrun hwait hstep
    obtain ⟨out', hout', hdone⟩ := waiting_returns hwait hstep
    have heq : out = out' := by
      rcases published hrun hs ht with hp | ht'
      · exact Option.some.inj (hp.symm.trans hout')
      · exact outcome_eq_promise (hs.run hrun) ht' hout'
    rw [hdone, heq]
  case returned_agree =>
    intro as u t t' k k' r result result' ht hrun ht'
    have hl := hs.learnt t
    have hl' := (hs.run hrun).learnt t'
    rw [ht] at hl
    rw [ht'] at hl'
    obtain ⟨out, rfl, hout⟩ := hl
    obtain ⟨out', rfl, hout'⟩ := hl'
    rw [Option.some.inj ((promise_stable hrun hs hout).symm.trans hout')]
  case owner_ready =>
    intro t k r ht
    have hl := hs.learnt t
    rw [ht] at hl
    obtain ⟨out, hout⟩ := hl
    exact step_of_waiting ht hout
  case served =>
    intro t k r ht
    have hrole : s.board.role t = .waiting r := congrArg BaselinePc.role ht
    rcases hs.sound.waiting_served t r hrole with ⟨out, hout⟩ | ⟨t', k', hwork⟩
    · exact .inl (step_of_waiting ht hout)
    · exact .inr ⟨t', k', hwork⟩
  case unbroken => exact hs.unbroken
  case nothing_left =>
    intro hnone
    refine List.eq_nil_iff_forall_not_mem.mpr fun x hx => ?_
    obtain ⟨t, ht⟩ := hs.sound.board_owned x.1 x.2 (AList.mem_lookup_iff.mpr hx)
    exact hnone t (computing_of_owns ht)
  case linked => exact hs.linked

/-- Two callers of one key: the loader of one has come back, the other one waits for the load. -/
private def joinedCaller : List (BaselineAction ℕ ℕ Unit) :=
  [.call 0 (.getOrCompute 1 none), .run 0, .run 0, .run 0, .call 1 (.getOrCompute 1 none), .run 1,
    .run 1, .run 1, .loaderReturn 0 7]

theorem baseline_flights_joinedCaller :
    ∃ s u u' : BaselineSystem ℕ ℕ Unit, s.Reachable 2 ∧ s.Flights 2 ∧
      s.threads 0 = .loaded 1 none 0 7 ∧ s.threads 1 = .waiting false 1 0 ∧
      Transition.Run Step s [.run 0, .run 0, .run 0, .run 0, .run 0] u ∧ Step u (.run 1) u' ∧
      u'.threads 0 = .done (.computed (.ok 7)) (some (1, 0)) ∧
      u'.threads 1 = .done (.computed (.ok 7)) (some (1, 0)) := by
  let s := (Transition.exec step joinedCaller (init 2 0)).get (by decide)
  have hs : s.Reachable 2 := ⟨0, joinedCaller, Transition.run_of_exec (Option.some_get _).symm⟩
  have hflights := baseline_flights hs
  let u := (Transition.exec step [.run 0, .run 0, .run 0, .run 0, .run 0] s).get (by decide)
  have hrun : Transition.Run Step s [.run 0, .run 0, .run 0, .run 0, .run 0] u :=
    Transition.run_of_exec (Option.some_get _).symm
  let u' := (step (.run 1) u).get (by decide)
  have hstep : Step u (.run 1) u' := (Option.some_get _).symm
  have houtcome : (s.threads 0).outcome = some (0, .ok 7) := by decide
  have hwait : u.threads 1 = .waiting false 1 0 := by decide
  exact ⟨s, u, u', hs, hflights, by decide, by decide, hrun, hstep, by decide,
    hflights.one_outcome _ u u' 0 1 false 1 0 (.ok 7) houtcome hrun hwait hstep⟩

/-! ## A second load -/

/-- Only a `set` of the key, by a caller or after a load, stores it. -/
theorem Move.stores {maxKeys : ℕ} (h : Move s pc s₁ pc') (hkeys : s.cache.maxKeys = maxKeys)
    (hlinked : ∃ xs, s.cache.Holds xs ∧ xs.card ≤ maxKeys) {k : Key}
    (hk : s.cache.map.lookup k = none) (hk' : s₁.cache.map.lookup k ≠ none) :
    ∃ v ttl now, pc = .set k v ttl now ∨ ∃ r, pc = .storing k ttl r v now := by
  obtain ⟨xs, H, hcard⟩ := hlinked
  have hxs : xs.lookup k = none := ListedMap.lookup_none H hk
  have absent : ∀ {c : SingleLockCache Key Value} {ys : RecencyList Key (Record Value)},
      c.Holds ys → c.map.lookup k ≠ none → ∃ r, ys.lookup k = some r := by
    intro c ys H' hc
    obtain ⟨e, he⟩ := Option.ne_none_iff_exists'.mp hc
    exact ⟨_, ListedMap.lookup_some H' he⟩
  cases h with
  | get caller j now =>
      obtain ⟨r, hr⟩ := absent (SingleLockCache.holds_get H j now).2.1 hk'
      simp [lookup_of_lookedUp hr] at hxs
  | set j v ttl now =>
      obtain ⟨r, hr⟩ := absent (SingleLockCache.holds_set H (hkeys ▸ hcard) j v ttl now).1 hk'
      by_cases hj : k = j
      · exact ⟨v, ttl, now, .inl (by rw [hj])⟩
      · simp [RecencyList.lookup_put_of_ne hj hr] at hxs
  | storing j ttl r' v now =>
      obtain ⟨r, hr⟩ := absent (SingleLockCache.holds_set H (hkeys ▸ hcard) j v ttl now).1 hk'
      by_cases hj : k = j
      · exact ⟨v, ttl, now, .inr ⟨r', by rw [hj]⟩⟩
      · simp [RecencyList.lookup_put_of_ne hj hr] at hxs
  | del j =>
      obtain ⟨r, hr⟩ := absent (SingleLockCache.holds_del H j).2.1 hk'
      simp [(AList.lookup_of_lookup_erase hr).2] at hxs
  | _ => exact absurd hk hk'

/-- `get` has found nothing, and left nothing. -/
theorem lookup_get_of_none {c : SingleLockCache Key Value} {k : Key} {now : TimePoint}
    (h : (c.get k now).1 = none) : (c.get k now).2.map.lookup k = none := by
  unfold SingleLockCache.get at h ⊢
  split at h
  · next hk => exact hk
  · split at h
    · next hexp => simp [hexp, SingleLockCache.remove, AList.lookup_erase]
    · cases h

end BaselineSystem

/-- The thread has missed the key and is to load it for this record, or is loading it. -/
def BaselinePc.Fetches (k : Key) (ttl : Option Millis) (r : RecordId)
    (pc : BaselinePc Key Value Exn) : Prop := pc = .join k ttl ∨ pc = .loading k ttl r

namespace BaselineSystem

/-- Who starts to fetch a key has just looked it up, and left nothing. -/
theorem Move.fetches (h : Move s pc s₁ pc') {k : Key} {ttl : Option Millis} {r : RecordId}
    (hpc' : pc'.Fetches k ttl r) : pc.Fetches k ttl r ∨ s₁.cache.map.lookup k = none := by
  cases h with
  | call c => cases c <;> simp [BaselinePc.Fetches, WorkloadCall.start] at hpc'
  | get caller j now =>
      cases caller with
      | client => simp [BaselinePc.Fetches, BaselinePc.afterGet] at hpc'
      | compute ttl' =>
          cases hfound : (s.cache.get j now).1 with
          | some v => simp [BaselinePc.Fetches, BaselinePc.afterGet, hfound] at hpc'
          | none =>
              simp only [BaselinePc.Fetches, BaselinePc.afterGet, hfound, reduceCtorEq, or_false,
                BaselinePc.join.injEq] at hpc'
              obtain ⟨rfl, rfl⟩ := hpc'
              exact .inr (lookup_get_of_none hfound)
  | own j ttl' hfree =>
      simp only [BaselinePc.Fetches, reduceCtorEq, false_or, BaselinePc.loading.injEq] at hpc'
      obtain ⟨rfl, rfl, rfl⟩ := hpc'
      exact .inl (.inl rfl)
  | _ => simp [BaselinePc.Fetches] at hpc'

/-- Thread `t` is fetching a key that is stored. -/
def Needless (t : ℕ) (k : Key) (ttl : Option Millis) (r : RecordId)
    (s : BaselineSystem Key Value Exn) : Prop :=
  (s.threads t).Fetches k ttl r ∧ s.cache.map.lookup k ≠ none

/-- **One step.** A fetch becomes needless when a thread stores the key. -/
theorem needless_step {maxKeys : ℕ} {a : BaselineAction Key Value Exn} (h : Step s a s')
    (hs : s.Sound maxKeys) {k : Key} {ttl : Option Millis} {r : RecordId}
    (hbefore : ¬ s.Needless t k ttl r) (hafter : s'.Needless t k ttl r) :
    (s.threads t).Fetches k ttl r ∧ s.cache.map.lookup k = none ∧
      ∃ u v ttl' now, a = .run u ∧
        (s.threads u = .set k v ttl' now ∨ ∃ r, s.threads u = .storing k ttl' r v now) := by
  obtain ⟨hfetches', hstored⟩ := hafter
  rcases step_cases h with ⟨now, -, rfl⟩ | ⟨u, s₁, pc', hmove, rfl, hrun⟩
  · exact absurd ⟨hfetches', hstored⟩ hbefore
  · have hfetches : (s.threads t).Fetches k ttl r := by
      rw [threads_setPc, hmove.threads_eq] at hfetches'
      split at hfetches'
      · next htu =>
        subst htu
        exact (hmove.fetches hfetches').resolve_right hstored
      · exact hfetches'
    have habsent : s.cache.map.lookup k = none := by
      by_contra hpresent
      exact hbefore ⟨hfetches, hpresent⟩
    obtain ⟨v, ttl', now, hpc⟩ := hmove.stores hs.keys_eq hs.linked habsent hstored
    have ha : a = .run u := by
      refine hrun.resolve_right fun hcache => hstored ?_
      change s₁.cache.map.lookup k = none
      rw [hcache, habsent]
    exact ⟨hfetches, habsent, u, v, ttl', now, ha, hpc⟩

/-- **A key is loaded a second time only if it was stored meanwhile.** Take any run to a state in which
a thread's loader runs while its key is stored. The run has a step in which a thread that sets the key,
or has loaded it, stores it: the key is missing before and stored from then on. At that moment the
thread that loads is past its own lookup, in the same call: from then on it is about to register its
load or loading. -/
theorem stored_of_load {maxKeys : ℕ} {now : TimePoint} {as : List (BaselineAction Key Value Exn)}
    (h : Transition.Run Step (init maxKeys now) as s) {k : Key} {ttl : Option Millis} {r : RecordId}
    (hload : s.threads t = .loading k ttl r) (hstored : s.cache.map.lookup k ≠ none) :
    ∃ bs u cs x y, as = bs ++ .run u :: cs ∧ Transition.Run Step (init maxKeys now) bs x ∧
      Step x (.run u) y ∧
      (∃ v ttl' now', x.threads u = .set k v ttl' now' ∨
        ∃ r', x.threads u = .storing k ttl' r' v now') ∧
      (x.threads t).Fetches k ttl r ∧ x.cache.map.lookup k = none ∧
      Transition.Run (fun x a y => Step x a y ∧ x.Needless t k ttl r ∧ y.Needless t k ttl r)
        y cs s := by
  have hstart : ¬ (init maxKeys now : BaselineSystem Key Value Exn).Needless t k ttl r := by
    rintro ⟨hfetches, -⟩
    simp [BaselinePc.Fetches, init] at hfetches
  obtain ⟨bs, a, cs, x, y, rfl, hbs, hx, hxy, hy, hcs⟩ :=
    h.exists_entry hstart ⟨.inr hload, hstored⟩
  have hxs : x.Sound maxKeys := Reachable.sound ⟨now, bs, hbs⟩
  obtain ⟨hfetches, habsent, u, v, ttl', now', rfl, hpc⟩ := needless_step hxy hxs hx hy
  exact ⟨bs, u, cs, x, y, rfl, hbs, hxy, ⟨v, ttl', now', hpc⟩, hfetches, habsent, hcs⟩

/-- Thread 1 has not found the key; thread 0 stores it before thread 1 gets to `in_flight_`. -/
private def lateSet : List (BaselineAction ℕ ℕ Unit) :=
  [.call 1 (.getOrCompute 1 none), .run 1, .run 1, .call 0 (.set 1 5 none), .run 0, .run 0, .run 1]

theorem stored_of_load_lateSet :
    ∃ s : BaselineSystem ℕ ℕ Unit, Transition.Run Step (init 2 0) lateSet s ∧
      s.threads 1 = .loading 1 none 0 ∧ s.cache.map.lookup 1 ≠ none ∧
      ∃ bs u cs x y, lateSet = bs ++ .run u :: cs ∧ Transition.Run Step (init 2 0) bs x ∧
        Step x (.run u) y ∧
        (∃ v ttl' now', x.threads u = .set 1 v ttl' now' ∨
          ∃ r', x.threads u = .storing 1 ttl' r' v now') ∧
        (x.threads 1).Fetches 1 none 0 ∧ x.cache.map.lookup 1 = none ∧
        Transition.Run (fun x a y => Step x a y ∧ x.Needless 1 1 none 0 ∧ y.Needless 1 1 none 0)
          y cs s := by
  let s := (Transition.exec step lateSet (init 2 0 : BaselineSystem ℕ ℕ Unit)).get (by decide)
  have hrun : Transition.Run Step (init 2 0) lateSet s :=
    Transition.run_of_exec (Option.some_get _).symm
  have hload : s.threads 1 = .loading 1 none 0 := by decide
  have hstored : s.cache.map.lookup 1 ≠ none := Option.isSome_iff_ne_none.mp (by decide)
  exact ⟨s, hrun, hload, hstored, stored_of_load hrun hload hstored⟩

end BaselineSystem
end MiniRedis
