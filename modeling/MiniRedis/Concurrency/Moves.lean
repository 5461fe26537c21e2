import MiniRedis.Cache.Edit
import MiniRedis.Concurrency.System

/-!
# What a step can do

`Move s pc s₁ pc'` lists everything a thread at `pc` can do in the system `s`: it leaves the shared
state as `s₁` and goes to `pc'`. Every step of the system is the passing of time or one move, and
every move edits at most one shard, for a reason its program counter gives (`Pc.Causes`).

From here on nothing unfolds `step`.
-/
namespace MiniRedis
variable {Key Value Exn : Type}

/-- The outcome a thread is about to publish. -/
def Pc.pending : Pc Key Value Exn → Option (Key × RecordId × Except Exn Value)
  | .stored k r v _ => some (k, r, .ok v)
  | .threw k r exn => some (k, r, .error exn)
  | _ => none

/-- What a thread is about to store. -/
def Pc.storing : Pc Key Value Exn → Option (Key × Value)
  | .set k v _ => some (k, v)
  | .loaded k _ _ v => some (k, v)
  | _ => none

/-- Who is about to publish an outcome stores nothing. -/
theorem storing_of_pending {pc : Pc Key Value Exn} {x : Key × RecordId × Except Exn Value}
    (h : pc.pending = some x) : pc.storing = none := by
  cases pc <;> first | rfl | cases h

/-- The clock reading a thread works with. -/
def Pc.sample : Pc Key Value Exn → Option TimePoint
  | .getShared _ _ now => some now
  | .getExclusive _ _ now => some now
  | .cleanup now _ => some now
  | .count now _ _ => some now
  | _ => none

/-- The causes for which a thread edits a shard when it moves. -/
def Pc.Causes (clock : TimePoint) : Pc Key Value Exn → Cause Key Value → Prop
  | .getShared .., c => c = .upkeep
  | .getExclusive _ _ now, c => c = .upkeep ∨ c = .expire now
  | .set k v ttl, c => c = .store k v ttl clock
  | .del k, c => c = .delete k
  | .recheck .., c => c = .upkeep ∨ c = .expire clock ∨ c = .flight
  | .loaded k ttl _ v, c => c = .store k v ttl clock
  | .completed .., c => c = .flight
  | .cleanup now _, c => c = .expire now
  | _, _ => False

/-- The thread that acts. -/
def Action.thread : Action Key Value Exn → Option ℕ
  | .tick _ => none
  | .call t _ => some t
  | .run t => some t
  | .loaderReturn t _ => some t
  | .loaderThrow t _ => some t

variable [DecidableEq Key] {P : CacheParams Key Value}

namespace System

/-- The entry stored for a key. -/
def entry (s : System P Exn) (k : Key) : Option (Entry Value) :=
  (s.cache.shards (shardForKey P k)).map.lookup k

/-- The record in flight for a key. -/
def flight (s : System P Exn) (k : Key) : Option RecordId :=
  (s.cache.shards (shardForKey P k)).inflight.lookup k

/-- What a thread that has locked a key's shard sees. -/
def held (s : System P Exn) (k : Key) : Locked Key Value := s.cache.locked (shardForKey P k)

/-- Release a key's shard. -/
def release (s : System P Exn) (k : Key) (l : Locked Key Value) : System P Exn :=
  { s with cache := s.cache.unlock (shardForKey P k) l }

/-- An absent or expired entry is out of the way. -/
def Purged (s : System P Exn) (k : Key) (now : TimePoint) (l : Locked Key Value) : Prop :=
  (s.entry k = none ∧ l = s.held k) ∨
    ∃ e, s.entry k = some e ∧ isExpired e now = true ∧ l = (s.held k).expireLocked k e

inductive Move (s : System P Exn) :
    Pc Key Value Exn → System P Exn → Pc Key Value Exn → Prop
  | call (c : Call Key Value) : Move s .idle s c.start
  | getSample (caller k) : Move s (.getSample caller k) s (.getShared caller k s.clock)
  | sharedMiss (caller k now) (hk : s.entry k = none) :
      Move s (.getShared caller k now) (s.release k ((s.held k).count Counters.miss))
        (caller.missed k)
  | sharedFound (caller k now) : Move s (.getShared caller k now) s (.getExclusive caller k now)
  | exclusiveMiss (caller k now) (hk : s.entry k = none) :
      Move s (.getExclusive caller k now) (s.release k ((s.held k).count Counters.miss))
        (caller.missed k)
  | exclusiveExpired (caller k now e) (he : s.entry k = some e) (hexp : isExpired e now = true) :
      Move s (.getExclusive caller k now)
        (s.release k (((s.held k).expireLocked k e).count Counters.miss)) (caller.missed k)
  | exclusiveHit (caller k now e) (he : s.entry k = some e) (hlive : isExpired e now = false) :
      Move s (.getExclusive caller k now)
        (s.release k (((s.held k).touchLruLocked k e).count Counters.hit))
        (caller.found e.value (s.source k))
  | set (k v ttl) :
      Move s (.set k v ttl) (s.store k v ttl none).2
        (.done (.stored (s.store k v ttl none).1) none)
  | delAbsent (k) (hk : s.entry k = none) : Move s (.del k) s (.done (.deleted false) none)
  | delPresent (k e) (he : s.entry k = some e) :
      Move s (.del k) (s.release k ((s.held k).eraseEntryLocked k e)) (.done (.deleted true) none)
  | recheckHit (k ttl e) (he : s.entry k = some e) (hlive : isExpired e s.clock = false) :
      Move s (.recheck k ttl) (s.release k (((s.held k).touchLruLocked k e).count Counters.hit))
        (.done (.computed (.ok e.value)) (s.source k))
  | recheckJoin (k ttl l r) (hl : s.Purged k s.clock l) (hr : s.flight k = some r) :
      Move s (.recheck k ttl) (s.release k l) (.waiting k r)
  | recheckOwn (k ttl l) (hl : s.Purged k s.clock l) (hfree : s.flight k = none) :
      Move s (.recheck k ttl)
        { s.release k { l with shard := { l.shard with
            inflight := l.shard.inflight.insert k s.nextRecord } } with
          nextRecord := s.nextRecord + 1 }
        (.registered k ttl s.nextRecord)
  | load (k ttl r) : Move s (.registered k ttl r) s (.loading k ttl r)
  | loaderReturn (k ttl r v) : Move s (.loading k ttl r) s (.loaded k ttl r v)
  | loaderThrow (k ttl r exn) : Move s (.loading k ttl r) s (.threw k r exn)
  | loaded (k ttl r v) :
      Move s (.loaded k ttl r v) (s.store k v ttl (some r)).2
        (.stored k r v (s.store k v ttl (some r)).1)
  | complete {pc} (k r out) (hpc : pc.pending = some (k, r, out)) (hopen : s.promises r = none) :
      Move s pc { s with promises := Function.update s.promises r (some out) }
        (.completed k r out)
  | broken {pc} (k r out out') (hpc : pc.pending = some (k, r, out))
      (hdone : s.promises r = some out') : Move s pc s .broken
  | unregister (k r out) :
      Move s (.completed k r out) (s.release k ((s.held k).unregisterLocked k))
        (.done (.computed out) (some (k, r)))
  | wake (k r out) (hout : s.promises r = some out) :
      Move s (.waiting k r) s (.done (.computed out) (some (k, r)))
  | cleanupSample : Move s .cleanupSample s (.cleanup s.clock 0)
  | cleanup (now i) (hi : i < P.numShards) :
      Move s (.cleanup now i) { s with cache := s.cache.cleanupShard now ⟨i, hi⟩ }
        (.cleanup now (i + 1))
  | cleanupDone (now i) : Move s (.cleanup now i) s (.done .cleaned none)
  | countSample : Move s .countSample s (.count s.clock 0 0)
  | count (now i total) (hi : i < P.numShards) :
      Move s (.count now i total) s
        (.count now (i + 1) (total + (s.cache.shards ⟨i, hi⟩).activeKeys now))
  | countDone (now i total) : Move s (.count now i total) s (.done (.counted total) none)
  | leave (result source) : Move s (.done result source) s .idle

/-! ## A step is a move -/

/-- Thread `t` goes from `pc` to some other place by a move. -/
private def Moves (s : System P Exn) (t : ℕ) (pc : Pc Key Value Exn) (s' : System P Exn) : Prop :=
  ∃ s₁ pc', Move s pc s₁ pc' ∧ s' = s₁.setPc t pc'

private theorem moves_complete {s : System P Exn} (t : ℕ) {pc : Pc Key Value Exn} {k : Key}
    {r : RecordId} {out : Except Exn Value} (hpc : pc.pending = some (k, r, out)) :
    s.Moves t pc (s.complete t k r out) := by
  cases hp : s.promises r with
  | none => exact ⟨_, _, .complete k r out hpc hp, by simp only [complete, hp]⟩
  | some out' => exact ⟨_, _, .broken k r out out' hpc hp, by simp only [complete, hp]⟩

private theorem moves_getShared {s s' : System P Exn} {t : ℕ} {caller : Caller} {k : Key}
    {now : TimePoint} (hpc : s.threads t = .getShared caller k now)
    (h : s.runThread t = some s') : s.Moves t (.getShared caller k now) s' := by
  cases hk : s.entry k with
  | none =>
      have hsec : Locked.getSharedLocked k (s.held k)
          = (false, (s.held k).count Counters.miss) := Locked.getSharedLocked_of_none hk
      simp only [runThread, hpc, ShardedCache.withLock_eq hsec, Bool.false_eq_true, if_false,
        Option.some.injEq] at h
      exact ⟨_, _, .sharedMiss caller k now hk, h.symm⟩
  | some e =>
      have hsec : Locked.getSharedLocked k (s.held k) = (true, s.held k) :=
        Locked.getSharedLocked_of_some hk
      simp only [runThread, hpc, ShardedCache.withLock_of_eq hsec, if_true,
        Option.some.injEq] at h
      exact ⟨_, _, .sharedFound caller k now, h.symm⟩

private theorem moves_getExclusive {s s' : System P Exn} {t : ℕ} {caller : Caller} {k : Key}
    {now : TimePoint} (hpc : s.threads t = .getExclusive caller k now)
    (h : s.runThread t = some s') : s.Moves t (.getExclusive caller k now) s' := by
  cases hk : s.entry k with
  | none =>
      have hsec : Locked.getExclusiveLocked k now (s.held k)
          = (none, (s.held k).count Counters.miss) := Locked.getExclusiveLocked_of_none hk
      simp only [runThread, hpc, ShardedCache.withLock_eq hsec, Option.some.injEq] at h
      exact ⟨_, _, .exclusiveMiss caller k now hk, h.symm⟩
  | some e =>
      cases hexp : isExpired e now with
      | true =>
          have hsec : Locked.getExclusiveLocked k now (s.held k)
              = (none, ((s.held k).expireLocked k e).count Counters.miss) :=
            Locked.getExclusiveLocked_of_expired hk hexp
          simp only [runThread, hpc, ShardedCache.withLock_eq hsec, Option.some.injEq] at h
          exact ⟨_, _, .exclusiveExpired caller k now e hk hexp, h.symm⟩
      | false =>
          have hsec : Locked.getExclusiveLocked k now (s.held k)
              = (some e.value, ((s.held k).touchLruLocked k e).count Counters.hit) :=
            Locked.getExclusiveLocked_of_live hk hexp
          simp only [runThread, hpc, ShardedCache.withLock_eq hsec, Option.some.injEq] at h
          exact ⟨_, _, .exclusiveHit caller k now e hk hexp, h.symm⟩

private theorem moves_del {s s' : System P Exn} {t : ℕ} {k : Key}
    (hpc : s.threads t = .del k) (h : s.runThread t = some s') : s.Moves t (.del k) s' := by
  cases hk : s.entry k with
  | none =>
      have hsec : Locked.delLocked k (s.held k) = (false, s.held k) :=
        Locked.delLocked_of_none hk
      simp only [runThread, hpc, ShardedCache.del, ShardedCache.withLock_of_eq hsec,
        Option.some.injEq] at h
      exact ⟨_, _, .delAbsent k hk, h.symm⟩
  | some e =>
      have hsec : Locked.delLocked k (s.held k) = (true, (s.held k).eraseEntryLocked k e) :=
        Locked.delLocked_of_some hk
      simp only [runThread, hpc, ShardedCache.del, ShardedCache.withLock_eq hsec,
        Option.some.injEq] at h
      exact ⟨_, _, .delPresent k e hk, h.symm⟩

/-- The second half of a recheck, whichever way the entry was found to be missing. -/
private theorem moves_register {s s' : System P Exn} {t : ℕ} {k : Key} {ttl : Option Millis}
    {l : Locked Key Value} (hl : s.Purged k s.clock l)
    (hsec : Locked.recheckLocked k s.clock s.nextRecord (s.held k)
      = Locked.recheckLocked.register k s.nextRecord l)
    (hpc : s.threads t = .recheck k ttl) (h : s.runThread t = some s') :
    s.Moves t (.recheck k ttl) s' := by
  have hflight : l.shard.inflight.lookup k = s.flight k := by
    rcases hl with ⟨-, rfl⟩ | ⟨e, -, -, rfl⟩ <;> rfl
  cases hk : s.flight k with
  | some r =>
      simp only [Locked.recheckLocked.register, hflight, hk] at hsec
      simp only [runThread, hpc, ShardedCache.withLock_eq hsec, Option.some.injEq] at h
      exact ⟨_, _, .recheckJoin k ttl l r hl hk, h.symm⟩
  | none =>
      simp only [Locked.recheckLocked.register, hflight, hk] at hsec
      simp only [runThread, hpc, ShardedCache.withLock_eq hsec, Option.some.injEq] at h
      exact ⟨_, _, .recheckOwn k ttl l hl hk, h.symm⟩

private theorem moves_recheck {s s' : System P Exn} {t : ℕ} {k : Key} {ttl : Option Millis}
    (hpc : s.threads t = .recheck k ttl) (h : s.runThread t = some s') :
    s.Moves t (.recheck k ttl) s' := by
  cases hk : s.entry k with
  | none =>
      exact moves_register (.inl ⟨hk, rfl⟩) (Locked.recheckLocked_of_none (s := s.held k) hk _) hpc h
  | some e =>
      cases hexp : isExpired e s.clock with
      | true =>
          exact moves_register (.inr ⟨e, hk, hexp, rfl⟩)
            (Locked.recheckLocked_of_expired (s := s.held k) hk hexp _) hpc h
      | false =>
          have hsec : Locked.recheckLocked k s.clock s.nextRecord (s.held k)
              = (.hit e.value, ((s.held k).touchLruLocked k e).count Counters.hit) :=
            Locked.recheckLocked_of_live (s := s.held k) hk hexp _
          simp only [runThread, hpc, ShardedCache.withLock_eq hsec, Option.some.injEq] at h
          exact ⟨_, _, .recheckHit k ttl e hk hexp, h.symm⟩

private theorem moves_runThread {s s' : System P Exn} {t : ℕ} (h : s.runThread t = some s') :
    s.Moves t (s.threads t) s' := by
  cases hpc : s.threads t with
  | getShared caller k now => exact moves_getShared hpc h
  | getExclusive caller k now => exact moves_getExclusive hpc h
  | del k => exact moves_del hpc h
  | recheck k ttl => exact moves_recheck hpc h
  | idle => simp [runThread, hpc] at h
  | loading k ttl r => simp [runThread, hpc] at h
  | broken => simp [runThread, hpc] at h
  | waiting k r =>
      simp only [runThread, hpc, Option.map_eq_some_iff] at h
      obtain ⟨out, hout, h⟩ := h
      exact ⟨_, _, .wake k r out hout, h.symm⟩
  | cleanup now i =>
      simp only [runThread, hpc] at h
      split at h
      · next hi => exact ⟨_, _, .cleanup now i hi, (Option.some.inj h).symm⟩
      · exact ⟨_, _, .cleanupDone now i, (Option.some.inj h).symm⟩
  | count now i total =>
      simp only [runThread, hpc] at h
      split at h
      · next hi => exact ⟨_, _, .count now i total hi, (Option.some.inj h).symm⟩
      · exact ⟨_, _, .countDone now i total, (Option.some.inj h).symm⟩
  | stored k r v ok =>
      simp only [runThread, hpc, Option.some.injEq] at h
      exact h ▸ moves_complete t rfl
  | threw k r exn =>
      simp only [runThread, hpc, Option.some.injEq] at h
      exact h ▸ moves_complete t rfl
  | getSample caller k =>
      simp only [runThread, hpc, Option.some.injEq] at h
      exact ⟨_, _, .getSample caller k, h.symm⟩
  | set k v ttl =>
      simp only [runThread, hpc, Option.some.injEq] at h
      exact ⟨_, _, .set k v ttl, h.symm⟩
  | registered k ttl r =>
      simp only [runThread, hpc, Option.some.injEq] at h
      exact ⟨_, _, .load k ttl r, h.symm⟩
  | loaded k ttl r v =>
      simp only [runThread, hpc, Option.some.injEq] at h
      exact ⟨_, _, .loaded k ttl r v, h.symm⟩
  | completed k r out =>
      simp only [runThread, hpc, Option.some.injEq] at h
      exact ⟨_, _, .unregister k r out, h.symm⟩
  | cleanupSample =>
      simp only [runThread, hpc, Option.some.injEq] at h
      exact ⟨_, _, .cleanupSample, h.symm⟩
  | countSample =>
      simp only [runThread, hpc, Option.some.injEq] at h
      exact ⟨_, _, .countSample, h.symm⟩
  | done result source =>
      simp only [runThread, hpc, Option.some.injEq] at h
      exact ⟨_, _, .leave result source, h.symm⟩

/-- **Everything a step can do**: let time pass, or move one thread. -/
theorem step_cases {s s' : System P Exn} {a : Action Key Value Exn} (h : Step s a s') :
    (∃ now, a = .tick now ∧ s.clock ≤ now ∧ s' = { s with clock := now }) ∨
      ∃ t s₁ pc', a.thread = some t ∧ Move s (s.threads t) s₁ pc' ∧ s' = s₁.setPc t pc' := by
  cases a with
  | tick now =>
      simp only [Step, step] at h
      split at h
      · next hle => exact .inl ⟨now, rfl, hle, (Option.some.inj h).symm⟩
      · cases h
  | call t c =>
      simp only [Step, step] at h
      split at h
      · next hpc =>
        refine .inr ⟨t, _, _, rfl, ?_, (Option.some.inj h).symm⟩
        rw [hpc]
        exact .call c
      · cases h
  | run t =>
      obtain ⟨s₁, pc', hmove, heq⟩ := moves_runThread h
      exact .inr ⟨t, s₁, pc', rfl, hmove, heq⟩
  | loaderReturn t v =>
      simp only [Step, step] at h
      split at h
      · next k ttl r hpc =>
        refine .inr ⟨t, _, _, rfl, ?_, (Option.some.inj h).symm⟩
        rw [hpc]
        exact .loaderReturn k ttl r v
      · cases h
  | loaderThrow t exn =>
      simp only [Step, step] at h
      split at h
      · next k ttl r hpc =>
        refine .inr ⟨t, _, _, rfl, ?_, (Option.some.inj h).symm⟩
        rw [hpc]
        exact .loaderThrow k ttl r exn
      · cases h

theorem move_of_run {s s' : System P Exn} {t : ℕ} {pc : Pc Key Value Exn}
    (h : Step s (.run t) s') (hpc : s.threads t = pc) :
    ∃ s₁ pc', Move s pc s₁ pc' ∧ s' = s₁.setPc t pc' := hpc ▸ moves_runThread h

/-! ## What moves leave alone, and what they edit -/

section SetPc
omit [DecidableEq Key]
variable (t : ℕ) (pc : Pc Key Value Exn) (s : System P Exn)

@[simp] theorem cache_setPc : (s.setPc t pc).cache = s.cache := rfl
@[simp] theorem clock_setPc : (s.setPc t pc).clock = s.clock := rfl
@[simp] theorem promises_setPc : (s.setPc t pc).promises = s.promises := rfl
@[simp] theorem nextRecord_setPc : (s.setPc t pc).nextRecord = s.nextRecord := rfl
@[simp] theorem origin_setPc : (s.setPc t pc).origin = s.origin := rfl
@[simp] theorem threads_setPc (u : ℕ) :
    (s.setPc t pc).threads u = if u = t then pc else s.threads u := Function.update_apply ..

theorem threads_self_setPc : (s.setPc t pc).threads t = pc := by simp

end SetPc

@[simp] theorem origin_store (k : Key) (v : Value) (ttl : Option Millis)
    (record : Option RecordId) (s : System P Exn) :
    (s.store k v ttl record).2.origin = Function.update s.origin k record := rfl

theorem entry_eq_of_unlock {s s₁ : System P Exn} {i : Fin P.numShards} {l : Locked Key Value}
    (h : s₁.cache = s.cache.unlock i l) (k : Key) :
    s₁.entry k = if shardForKey P k = i then l.shard.map.lookup k else s.entry k := by
  rw [entry, h, ShardedCache.shards_unlock, Function.update_apply]
  split <;> rfl

namespace Move
variable {s s₁ : System P Exn} {pc pc' : Pc Key Value Exn}

theorem threads_eq (h : Move s pc s₁ pc') : s₁.threads = s.threads := by cases h <;> rfl

theorem clock_eq (h : Move s pc s₁ pc') : s₁.clock = s.clock := by cases h <;> rfl

/-- A clock reading is taken from the clock or was taken before. -/
theorem sample_eq (h : Move s pc s₁ pc') {now : TimePoint} (hs : pc'.sample = some now) :
    now = s.clock ∨ pc.sample = some now := by
  cases h with
  | call c => cases c <;> cases hs
  | sharedMiss caller k now' hk => cases caller <;> cases hs
  | exclusiveMiss caller k now' hk => cases caller <;> cases hs
  | exclusiveExpired caller k now' e he hexp => cases caller <;> cases hs
  | exclusiveHit caller k now' e he hlive => cases caller <;> cases hs
  | getSample | cleanupSample | countSample => exact .inl (Option.some.inj hs).symm
  | sharedFound | cleanup | count => exact .inr hs
  | _ => cases hs

/-- A move edits one shard, for a cause its program counter gives. -/
theorem edits (h : Move s pc s₁ pc') {xs : Fin P.numShards → RecencyList Key (Record Value)}
    (R : s.cache.Rep xs) : ∃ i l ys,
      Edits P (fun c => pc.Causes s.clock c ∧ c.Home P i) (s.cache.locked i, xs i) (l, ys) ∧
        s₁.cache = s.cache.unlock i l := by
  have unedited : s₁.cache = s.cache → ∃ i l ys,
      Edits P (fun c => pc.Causes s.clock c ∧ c.Home P i) (s.cache.locked i, xs i) (l, ys) ∧
        s₁.cache = s.cache.unlock i l := by
    intro heq
    exact ⟨⟨0, P.numShards_pos⟩, _, _, .refl _, by rw [heq, ShardedCache.unlock_locked]⟩
  have purged : ∀ {k l}, s.Purged k s.clock l → ∃ ys,
      Edits P (fun c => (c = .upkeep ∨ c = .expire s.clock ∨ c = .flight) ∧
        c.Home P (shardForKey P k)) (s.held k, xs (shardForKey P k)) (l, ys) := by
    rintro k l (⟨-, rfl⟩ | ⟨e, he, hexp, rfl⟩)
    · exact ⟨_, .refl _⟩
    · exact ⟨_, .one ⟨.inr (.inl rfl), trivial⟩ (.expire (s := s.held k) he hexp)⟩
  cases h with
  | sharedMiss caller k now hk =>
      exact ⟨shardForKey P k, _, _, Locked.edits_miss (s := s.held k) ⟨rfl, trivial⟩, rfl⟩
  | exclusiveMiss caller k now hk =>
      exact ⟨shardForKey P k, _, _, Locked.edits_miss (s := s.held k) ⟨.inl rfl, trivial⟩, rfl⟩
  | exclusiveExpired caller k now e he hexp =>
      exact ⟨shardForKey P k, _, _,
        (Edits.one ⟨.inr rfl, trivial⟩ (.expire (s := s.held k) he hexp)).trans
          (Locked.edits_miss ⟨.inl rfl, trivial⟩), rfl⟩
  | exclusiveHit caller k now e he hlive =>
      exact ⟨shardForKey P k, _, _, Locked.edits_hit (s := s.held k) he ⟨.inl rfl, trivial⟩, rfl⟩
  | recheckHit k ttl e he hlive =>
      exact ⟨shardForKey P k, _, _, Locked.edits_hit (s := s.held k) he ⟨.inl rfl, trivial⟩, rfl⟩
  | set k v ttl =>
      obtain ⟨ys, hys⟩ := Locked.edits_setImpl (R.holds (shardForKey P k)) (R.card_le _) k v ttl
        s.clock
      refine ⟨shardForKey P k, _, ys, hys.mono ?_, rfl⟩
      rintro c rfl
      exact ⟨rfl, rfl⟩
  | loaded k ttl r v =>
      obtain ⟨ys, hys⟩ := Locked.edits_setImpl (R.holds (shardForKey P k)) (R.card_le _) k v ttl
        s.clock
      refine ⟨shardForKey P k, _, ys, hys.mono ?_, rfl⟩
      rintro c rfl
      exact ⟨rfl, rfl⟩
  | delPresent k e he =>
      exact ⟨shardForKey P k, _, _, .one ⟨rfl, rfl⟩ (.delete (s := s.held k) he), rfl⟩
  | recheckJoin k ttl l r hl hr =>
      obtain ⟨ys, hys⟩ := purged hl
      exact ⟨shardForKey P k, l, ys, hys, rfl⟩
  | recheckOwn k ttl l hl hfree =>
      obtain ⟨ys, hys⟩ := purged hl
      exact ⟨shardForKey P k, _, ys,
        hys.trans (.one ⟨.inr (.inr rfl), trivial⟩ (.flight _)), rfl⟩
  | unregister k r out =>
      exact ⟨shardForKey P k, _, _, .one ⟨rfl, trivial⟩ (.flight (s := s.held k) _), rfl⟩
  | cleanup now i hi =>
      obtain ⟨ys, hys⟩ := Locked.edits_cleanup (R.holds ⟨i, hi⟩) now (s := s.cache.locked ⟨i, hi⟩)
      refine ⟨⟨i, hi⟩, _, ys, hys.mono ?_, rfl⟩
      rintro c rfl
      exact ⟨rfl, trivial⟩
  | _ => exact unedited rfl

end Move

/-! ## What a thread sees of the others -/

theorem threads_of_other {s s' : System P Exn} {a : Action Key Value Exn} (h : Step s a s')
    {t : ℕ} (ha : a.thread ≠ some t) : s'.threads t = s.threads t := by
  rcases step_cases h with ⟨now, -, -, rfl⟩ | ⟨u, s₁, pc', hu, hmove, rfl⟩
  · rfl
  · have htu : t ≠ u := by
      rintro rfl
      exact ha hu
    rw [threads_setPc, hmove.threads_eq, if_neg htu]

theorem threads_of_others {s s' : System P Exn} {as : List (Action Key Value Exn)}
    (h : Transition.Run Step s as s') {t : ℕ} (has : ∀ a ∈ as, Action.thread a ≠ some t) :
    s'.threads t = s.threads t := by
  induction h with
  | nil s => rfl
  | @cons s u s' a as hstep _ ih =>
      rw [ih fun b hb => has b (List.mem_cons_of_mem _ hb),
        threads_of_other hstep (has a List.mem_cons_self)]

theorem threads_of_call {s s' : System P Exn} {t : ℕ} {c : Call Key Value}
    (h : Step s (.call t c) s') : s'.threads t = c.start := by
  simp only [Step, step] at h
  split at h
  · cases h
    exact threads_self_setPc ..
  · cases h

end System
end MiniRedis
