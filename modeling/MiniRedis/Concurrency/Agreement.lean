import MiniRedis.Concurrency.InFlight

/-!
# Agreement on a load's outcome, and clean-up

What the callers of `get_or_compute` rely on: a record has one owner for ever, its promise is
completed once and keeps its outcome, whoever joined the record gets that outcome, a call whose
loader throws stores nothing, and no record is left behind.
-/
namespace MiniRedis
variable {Key Value Exn : Type}

/-- The outcome an owner has got from its loader and will publish or has published. -/
def Pc.outcome : Pc Key Value Exn → Option (RecordId × Except Exn Value)
  | .loaded _ _ r v => some (r, .ok v)
  | .stored _ r v _ => some (r, .ok v)
  | .threw _ r exn => some (r, .error exn)
  | .completed _ r out => some (r, out)
  | _ => none

/-- The thread is in a `get_or_compute` call. -/
def Pc.Computing : Pc Key Value Exn → Prop
  | .getSample (.compute _) _ => True
  | .getShared (.compute _) _ _ => True
  | .getExclusive (.compute _) _ _ => True
  | .recheck .. => True
  | .registered .. => True
  | .loading .. => True
  | .loaded .. => True
  | .stored .. => True
  | .threw .. => True
  | .completed .. => True
  | .waiting .. => True
  | _ => False

/-- The loader has returned, or the outcome is published. -/
def Pc.Late : Pc Key Value Exn → Prop
  | .loaded .. => True
  | .stored .. => True
  | .completed .. => True
  | _ => False

/-- The thread is in no call. -/
def Pc.Outside : Pc Key Value Exn → Prop
  | .idle => True
  | .done .. => True
  | .broken => True
  | _ => False

theorem storing_of_computing {pc : Pc Key Value Exn} (h : pc.Computing) (hlate : ¬ pc.Late) :
    pc.storing = none := by
  cases pc <;> trivial

theorem computing_of_owns {pc : Pc Key Value Exn} {k : Key} {r : RecordId}
    (h : pc.role.owns = some (k, r)) : pc.Computing := by
  cases pc <;> trivial

variable [DecidableEq Key] {P : CacheParams Key Value} {maxKeys : ℕ}

namespace System

/-- Every record stored afterwards was stored before. -/
def StoresNothing (s s' : System P Exn) : Prop :=
  ∀ i k e', (s'.cache.shards i).map.lookup k = some e' →
    ∃ e, (s.cache.shards i).map.lookup k = some e ∧ e'.record = e.record

/-- A move that does not store `k` adds no record of `k` and changes none. -/
theorem Move.record_of_lookup {s s₁ : System P Exn} {pc pc' : Pc Key Value Exn}
    (h : Move s pc s₁ pc') (R : ∃ xs, s.cache.Rep xs) {k : Key}
    (hpc : ∀ v, pc.storing ≠ some (k, v)) {j : Fin P.numShards} {e' : Entry Value}
    (he' : (s₁.cache.shards j).map.lookup k = some e') :
    ∃ e, (s.cache.shards j).map.lookup k = some e ∧ e'.record = e.record := by
  obtain ⟨xs, R⟩ := R
  obtain ⟨i, l, ys, hedits, hcache⟩ := h.edits R
  have hall : ∀ v ttl now, ¬ pc.Causes s.clock (.store k v ttl now) := by
    intro v ttl now hcause
    cases pc <;> simp_all [Pc.Causes, Pc.storing]
  rw [hcache, ShardedCache.shards_unlock] at he'
  by_cases hj : j = i
  · subst hj
    rw [Function.update_self] at he'
    refine hedits.invariant (I := fun q => ∀ e', q.1.shard.map.lookup k = some e' →
      ∃ e, (s.cache.shards j).map.lookup k = some e ∧ e'.record = e.record) ?_
      (fun e' he' => ⟨e', he', rfl⟩) e' he'
    rintro p c q ⟨hc, -⟩ hedit hp e' he'
    have hstore : ∀ v ttl now, c ≠ .store k v ttl now := by
      rintro v ttl now rfl
      exact hall v ttl now hc
    obtain ⟨e, he, heq⟩ := hedit.record_of_lookup hstore he'
    obtain ⟨e₀, he₀, heq₀⟩ := hp e he
    exact ⟨e₀, he₀, heq.trans heq₀⟩
  · rw [Function.update_of_ne hj] at he'
    exact ⟨e', he', rfl⟩

theorem Move.storesNothing {s s₁ : System P Exn} {pc pc' : Pc Key Value Exn}
    (h : Move s pc s₁ pc') (R : ∃ xs, s.cache.Rep xs) (hpc : pc.storing = none) :
    s.StoresNothing s₁ := by
  intro i k e' he'
  exact h.record_of_lookup R (by simp [hpc]) he'

/-! ## Records keep their owner and promises their outcome -/

theorem board_step_or_eq {s s' : System P Exn} {a : Action Key Value Exn} (h : Step s a s')
    (hs : s.InFlightSound maxKeys) :
    s'.board = s.board ∨ ∃ t, SingleFlight.Board.Step t s.board s'.board := by
  rcases step_cases h with ⟨now, -, -, rfl⟩ | ⟨t, s₁, pc', -, hmove, rfl⟩
  · exact .inl rfl
  · exact .inr ⟨t, hmove.board_step hs.wellFormed.rep hs.sound⟩

theorem promise_stable {s s' : System P Exn} {as : List (Action Key Value Exn)}
    (h : Transition.Run Step s as s') (hs : s.InFlightSound maxKeys) {r : RecordId}
    {out : Except Exn Value} (hp : s.promises r = some out) : s'.promises r = some out := by
  refine InFlightSound.preserves (Q := fun x => x.board.promise r = some out) ?_ h hs hp
  intro x a y hxy hx hp
  rcases board_step_or_eq hxy hx with heq | ⟨t, hboard⟩
  · rw [heq]
    exact hp
  · exact hboard.promise_stable hx.sound hp

/-- Who owns an old record at the end of a run owned it at its beginning. -/
theorem owns_old {s s' : System P Exn} {as : List (Action Key Value Exn)}
    (h : Transition.Run Step s as s') (hs : s.InFlightSound maxKeys) {r : RecordId}
    (hr : r < s.nextRecord) {t : ℕ} {k : Key} (ht : (s'.threads t).role.owns = some (k, r)) :
    (s.threads t).role.owns = some (k, r) := by
  have hend : r < s'.board.next ∧
      ((s'.board.role t).owns = some (k, r) → (s.board.role t).owns = some (k, r)) := by
    refine InFlightSound.preserves (Q := fun x => r < x.board.next ∧
      ((x.board.role t).owns = some (k, r) → (s.board.role t).owns = some (k, r))) ?_ h hs ⟨hr, id⟩
    rintro x a y hxy hx ⟨hlt, hold⟩
    rcases board_step_or_eq hxy hx with heq | ⟨u, hboard⟩
    · rw [heq]
      exact ⟨hlt, hold⟩
    · exact ⟨hlt.trans_le hboard.next_mono, fun ht => hold (hboard.owns_old hlt ht)⟩
  exact hend.2 ht

/-- The owner of a record publishes the outcome it has got. -/
theorem published {s s' : System P Exn} {as : List (Action Key Value Exn)}
    (h : Transition.Run Step s as s') (hs : s.InFlightSound maxKeys) {t : ℕ} {r : RecordId}
    {out : Except Exn Value} (ht : (s.threads t).outcome = some (r, out)) :
    s'.promises r = some out ∨ (s'.threads t).outcome = some (r, out) := by
  have hstep : ∀ (x : System P Exn) a y, Step x a y → x.InFlightSound maxKeys →
      (x.promises r = some out ∨ (x.threads t).outcome = some (r, out)) →
        y.promises r = some out ∨ (y.threads t).outcome = some (r, out) := by
    rintro x a y hxy hx (hp | ht)
    · exact .inl (promise_stable (.cons hxy (.nil y)) hx hp)
    · rcases step_cases hxy with ⟨now, -, -, rfl⟩ | ⟨u, x₁, pc', -, hmove, rfl⟩
      · exact .inr ht
      · rw [threads_setPc, hmove.threads_eq, promises_setPc]
        by_cases htu : t = u
        · subst htu
          rw [if_pos rfl]
          generalize hpc : x.threads t = pc at hmove ht
          cases hmove with
          | loaded k ttl r' v => exact .inr ht
          | complete k r' out' hp hopen =>
              have heq : (r', out') = (r, out) := by
                cases pc <;> simp_all [Pc.pending, Pc.outcome]
              cases heq
              exact .inl (Function.update_self ..)
          | broken k r' out' out'' hp hdone =>
              have hrole : x.board.role t = .working k r' :=
                (congrArg Pc.role hpc).trans (role_of_pending hp)
              exact absurd ((hx.sound.working_open t k r' hrole).symm.trans hdone) (by simp)
          | unregister k r' out' =>
              have hrole : x.board.role t = .completed k r' out' := congrArg Pc.role hpc
              cases ht
              exact .inl (hx.sound.completed_holds t k _ _ hrole)
          | _ => cases ht
        · rw [if_neg htu]
          exact .inr ht
  exact InFlightSound.preserves hstep h hs (.inr ht)

/-! ## A call whose loader throws -/

theorem Move.computing {s s₁ : System P Exn} {pc pc' : Pc Key Value Exn} (h : Move s pc s₁ pc')
    (hpc : pc.Computing) (hin : ¬ pc'.Outside) : pc'.Computing := by
  cases h with
  | getSample caller | sharedFound caller | sharedMiss caller | exclusiveMiss caller
  | exclusiveExpired caller | exclusiveHit caller =>
      cases caller <;> trivial
  | broken => exact absurd trivial hin
  | _ => trivial

/-- Once the loader has returned, the call does not throw any more. -/
theorem Move.late {s s₁ : System P Exn} {pc pc' : Pc Key Value Exn} (h : Move s pc s₁ pc')
    (hpc : pc.Late) (hin : ¬ pc'.Outside) : pc'.Late := by
  cases h with
  | broken => exact absurd trivial hin
  | _ => trivial

/-- A step within the current call of thread `t`. -/
def StepIn (t : ℕ) (s : System P Exn) (a : Action Key Value Exn) (s' : System P Exn) : Prop :=
  Step s a s' ∧ ¬ (s'.threads t).Outside

/-- A step that stores nothing if it is one of thread `t`. -/
def StepIdly (t : ℕ) (s : System P Exn) (a : Action Key Value Exn) (s' : System P Exn) : Prop :=
  Step s a s' ∧ (a.thread = some t → s.StoresNothing s')

/-- The part of a throwing call up to the throw stores nothing. -/
theorem storesNothing_until_threw {s u : System P Exn} {as : List (Action Key Value Exn)} {t : ℕ}
    (h : Transition.Run (StepIn t) s as u) (hs : s.InFlightSound maxKeys)
    (hpc : (s.threads t).Computing) {k : Key} {r : RecordId} {exn : Exn}
    (hu : u.threads t = .threw k r exn) :
    ¬ (s.threads t).Late ∧ Transition.Run (StepIdly t) s as u := by
  induction h with
  | nil s => exact ⟨by rw [hu]; exact id, .nil s⟩
  | @cons s y u a as hstep _ ih =>
      obtain ⟨hstep, hin⟩ := hstep
      rcases step_cases hstep with ⟨now, rfl, -, rfl⟩ | ⟨t', s₁, pc', ha, hmove, rfl⟩
      · obtain ⟨hlate, hrun⟩ := ih (hs.step hstep) hpc hu
        exact ⟨hlate, .cons ⟨hstep, fun h => by cases h⟩ hrun⟩
      · have hthread : ((s₁.setPc t' pc').threads t) = if t = t' then pc' else s.threads t := by
          rw [threads_setPc, hmove.threads_eq]
        by_cases htt : t = t'
        · subst htt
          rw [if_pos rfl] at hthread
          rw [hthread] at hin ih
          obtain ⟨hlate', hrun⟩ := ih (hs.step hstep) (hmove.computing hpc hin) hu
          have hlate : ¬ (s.threads t).Late := fun hlate => hlate' (hmove.late hlate hin)
          exact ⟨hlate, .cons ⟨hstep, fun _ => hmove.storesNothing hs.wellFormed.rep
            (storing_of_computing hpc hlate)⟩ hrun⟩
        · rw [if_neg htt] at hthread
          rw [hthread] at ih
          obtain ⟨hlate, hrun⟩ := ih (hs.step hstep) hpc hu
          refine ⟨hlate, .cons ⟨hstep, fun h => ?_⟩ hrun⟩
          exact absurd (Option.some.inj (h.symm.trans ha)) htt

/-! ## The agreement -/

/-- What `get_or_compute` guarantees in a state `s`, looking at what comes after it. -/
structure Agreement (s : System P Exn) : Prop where
  /-- A record in flight has exactly one owner. -/
  one_owner : ∀ k r, s.flight k = some r → ∃! t, (s.threads t).role.owns = some (k, r)
  /-- Nobody else owns the record later, and the owner does not own it for another key. -/
  same_owner : ∀ as u t t' k k' r, Transition.Run Step s as u →
    (s.threads t).role.owns = some (k, r) → (u.threads t').role.owns = some (k', r) →
    t' = t ∧ k' = k
  /-- The promise is open as long as the owner has not completed it, … -/
  open_while_working : ∀ t k r, (s.threads t).role = .working k r → s.promises r = none
  /-- … holds the owner's outcome when the owner goes on to erase the record, … -/
  completed_when_erased : ∀ t k r out, s.threads t = .completed k r out →
    s.promises r = some out
  /-- … and is not completed again. -/
  completed_once : ∀ as u r out, Transition.Run Step s as u → s.promises r = some out →
    u.promises r = some out
  never_broken : ∀ t, s.threads t ≠ .broken
  /-- `inflight.erase(key)` removes the record of the call that makes it. -/
  erases_own : ∀ t k r out s', s.threads t = .completed k r out → Step s (.run t) s' →
    s.flight k = some r ∧ s'.flight = Function.update s.flight k none
  /-- A record whose promise is open gets its outcome from its owner. -/
  completed_by_owner : ∀ as u t k r out, (s.threads t).role = .working k r →
    Transition.Run Step s as u → u.promises r = some out →
    ∃ bs cs x, as = bs ++ cs ∧ Transition.Run Step s bs x ∧ Transition.Run Step x cs u ∧
      x.threads t = .completed k r out
  /-- Who joined a record returns its owner's outcome. -/
  joined_agree : ∀ as u u' t t' k r out, (s.threads t).outcome = some (r, out) →
    Transition.Run Step s as u → u.threads t' = .waiting k r → Step u (.run t') u' →
    u'.threads t' = .done (.computed out) (some (k, r))
  owner_agrees : ∀ t k r out s', s.threads t = .completed k r out → Step s (.run t) s' →
    s'.threads t = .done (.computed out) (some (k, r))
  /-- A call whose loader throws stores nothing before the throw, … -/
  throwing_stores_nothing : ∀ as u t ttl k k' r exn, s.threads t = .getSample (.compute ttl) k →
    Transition.Run (StepIn t) s as u → u.threads t = .threw k' r exn →
    Transition.Run (StepIdly t) s as u
  /-- … nothing when it publishes the exception, … -/
  publishing_stores_nothing : ∀ t k r exn s', s.threads t = .threw k r exn →
    Step s (.run t) s' → s'.threads t = .completed k r (.error exn) ∧ s.StoresNothing s'
  /-- … and nothing when it erases its record. -/
  erasing_stores_nothing : ∀ t k r out s', s.threads t = .completed k r out →
    Step s (.run t) s' → s.StoresNothing s'
  /-- Nothing is in flight when no `get_or_compute` is in progress. -/
  nothing_left : (∀ t, ¬ (s.threads t).Computing) →
    ∀ i, (s.cache.shards i).inflight.entries = []

/-- A waiting caller returns what the promise of its record holds. -/
theorem waiting_returns {s s' : System P Exn} {t : ℕ} {k : Key} {r : RecordId}
    (hpc : s.threads t = .waiting k r) (h : Step s (.run t) s') :
    ∃ out, s.promises r = some out ∧ s'.threads t = .done (.computed out) (some (k, r)) := by
  obtain ⟨s₁, pc', hmove, rfl⟩ := move_of_run h hpc
  cases hmove with
  | wake k r out hout => exact ⟨out, hout, threads_self_setPc ..⟩
  | complete k r out hp => cases hp
  | broken k r out out' hp => cases hp

/-- An outcome that is known and a promise that is completed agree. -/
theorem outcome_eq_promise {s : System P Exn} (hs : s.InFlightSound maxKeys) {t : ℕ}
    {r : RecordId} {out out' : Except Exn Value} (ht : (s.threads t).outcome = some (r, out))
    (hp : s.promises r = some out') : out = out' := by
  have hworking : ∀ k, (s.threads t).role = .working k r → out = out' := by
    intro k hrole
    exact absurd ((hs.sound.working_open t k r hrole).symm.trans hp) (by simp)
  cases hpc : s.threads t with
  | loaded k ttl r' v =>
      rw [hpc] at ht
      cases ht
      exact hworking k (by rw [hpc]; rfl)
  | stored k r' v ok =>
      rw [hpc] at ht
      cases ht
      exact hworking k (by rw [hpc]; rfl)
  | threw k r' exn =>
      rw [hpc] at ht
      cases ht
      exact hworking k (by rw [hpc]; rfl)
  | completed k r' out'' =>
      rw [hpc] at ht
      cases ht
      have hrole : s.board.role t = .completed k r out := congrArg Pc.role hpc
      exact Option.some.inj ((hs.sound.completed_holds t k r out hrole).symm.trans hp)
  | _ => simp [hpc, Pc.outcome] at ht

/-- Who completes a promise is the owner of the record. -/
theorem completed_of_step {s s' : System P Exn} {a : Action Key Value Exn}
    (h : Step s a s') {r : RecordId} {out : Except Exn Value} (hopen : s.promises r = none)
    (hp : s'.promises r = some out) :
    ∃ t k, (s.threads t).role = .working k r ∧ s'.threads t = .completed k r out := by
  rcases step_cases h with ⟨now, -, -, rfl⟩ | ⟨t, s₁, pc', -, hmove, rfl⟩
  · exact absurd (hopen.symm.trans hp) (by simp)
  · generalize hpc : s.threads t = pc at hmove
    rw [promises_setPc] at hp
    cases hmove with
    | complete k r' out' hpending hopen' =>
        change Function.update s.promises r' (some out') r = some out at hp
        by_cases hr : r = r'
        · subst hr
          rw [Function.update_self, Option.some.injEq] at hp
          subst hp
          exact ⟨t, k, (congrArg Pc.role hpc).trans (role_of_pending hpending),
            threads_self_setPc ..⟩
        · rw [Function.update_of_ne hr] at hp
          exact absurd (hopen.symm.trans hp) (by simp)
    | _ => exact absurd (hopen.symm.trans hp) (by simp)

/-- A promise that was open at the start of a run was completed by the owner it had there. -/
theorem completed_by_owner {s u : System P Exn} {as : List (Action Key Value Exn)}
    (h : Transition.Run Step s as u) (hs : s.InFlightSound maxKeys) {t : ℕ} {k : Key}
    {r : RecordId} {out : Except Exn Value} (ht : (s.threads t).role = .working k r)
    (hu : u.promises r = some out) :
    ∃ bs cs x, as = bs ++ cs ∧ Transition.Run Step s bs x ∧ Transition.Run Step x cs u ∧
      x.threads t = .completed k r out := by
  have hopen : s.promises r = none := hs.sound.working_open t k r ht
  have howns := SingleFlight.Board.owns_of_working (b := s.board) ht
  obtain ⟨bs, a, cs, x, y, rfl, hbs, hx, hxy, hy, hcs⟩ :=
    h.exists_exit (P := fun x => x.promises r = none) hopen (by simp [hu])
  replace hbs : Transition.Run Step s bs x := hbs.mono fun _ _ _ h => h.1
  obtain ⟨out', hout'⟩ := Option.ne_none_iff_exists'.mp hy
  obtain ⟨t', k', hrole, hdone⟩ := completed_of_step hxy hx hout'
  have hold := owns_old hbs hs (hs.sound.owned_created t k r howns) (t := t') (k := k')
    (by rw [hrole]; rfl)
  obtain ⟨rfl, rfl⟩ := hs.sound.owner_unique t' t k' k r hold howns
  have hout := promise_stable hcs ((hs.run hbs).step hxy) hout'
  rw [hu, Option.some.injEq] at hout
  subst hout
  exact ⟨bs ++ [a], cs, y, by simp, hbs.snoc hxy, hcs, hdone⟩

theorem InFlightSound.nothing_left {s : System P Exn} (hs : s.InFlightSound maxKeys)
    (hidle : ∀ t, ¬ (s.threads t).Computing) (i : Fin P.numShards) :
    (s.cache.shards i).inflight.entries = [] := by
  refine List.eq_nil_iff_forall_not_mem.mpr ?_
  rintro ⟨k, r⟩ hmem
  have hlook : (s.cache.shards i).inflight.lookup k = some r := AList.mem_lookup_iff.mpr hmem
  have hflight : s.board.flight k = some r := by
    change (s.cache.shards (shardForKey P k)).inflight.lookup k = some r
    rw [hs.home i k r hlook]
    exact hlook
  obtain ⟨t, ht⟩ := hs.sound.board_owned k r hflight
  exact hidle t (computing_of_owns ht)

/-- **In-flight agreement and clean-up**, in every reachable state. -/
theorem inflight_agreement {s : System P Exn} (h : s.Reachable maxKeys) : s.Agreement := by
  have hs := h.inFlightSound
  constructor
  case one_owner =>
    intro k r hk
    obtain ⟨t, ht⟩ := hs.sound.board_owned k r hk
    exact ⟨t, ht, fun t' ht' => (hs.sound.owner_unique t' t k k r ht' ht).1⟩
  case same_owner =>
    intro as u t t' k k' r hrun ht ht'
    have hold := owns_old hrun hs (hs.sound.owned_created t k r ht) ht'
    exact hs.sound.owner_unique t' t k' k r hold ht
  case open_while_working => exact hs.sound.working_open
  case completed_when_erased =>
    intro t k r out ht
    exact hs.sound.completed_holds t k r out (congrArg Pc.role ht)
  case completed_once =>
    intro as u r out hrun hp
    exact promise_stable hrun hs hp
  case never_broken => exact hs.unbroken
  case erases_own =>
    intro t k r out s' ht hstep
    have howns := SingleFlight.Board.owns_of_completed (b := s.board) (congrArg Pc.role ht)
    obtain ⟨s₁, pc', hmove, rfl⟩ := move_of_run hstep ht
    refine ⟨hs.sound.owned_on_board t k r howns, ?_⟩
    cases hmove with
    | unregister => exact flight_unregister s k
    | complete k r out hp => cases hp
    | broken k r out out' hp => cases hp
  case completed_by_owner =>
    intro as u t k r out ht hrun hu
    exact completed_by_owner hrun hs ht hu
  case joined_agree =>
    intro as u u' t t' k r out ht hrun hwait hstep
    obtain ⟨out', hout', hdone⟩ := waiting_returns hwait hstep
    have hu := hs.run hrun
    have heq : out = out' := by
      rcases published hrun hs ht with hp | ht'
      · exact Option.some.inj (hp.symm.trans hout')
      · exact outcome_eq_promise hu ht' hout'
    rw [hdone, heq]
  case owner_agrees =>
    intro t k r out s' ht hstep
    obtain ⟨s₁, pc', hmove, rfl⟩ := move_of_run hstep ht
    cases hmove with
    | unregister => exact threads_self_setPc ..
    | complete k r out hp => cases hp
    | broken k r out out' hp => cases hp
  case throwing_stores_nothing =>
    intro as u t ttl k k' r exn ht hrun hu
    exact (storesNothing_until_threw hrun hs (by rw [ht]; trivial) hu).2
  case publishing_stores_nothing =>
    intro t k r exn s' ht hstep
    obtain ⟨s₁, pc', hmove, rfl⟩ := move_of_run hstep ht
    refine ⟨?_, hmove.storesNothing hs.wellFormed.rep rfl⟩
    cases hmove with
    | complete k r out hp =>
        cases hp
        exact threads_self_setPc ..
    | broken k r out out' hp hdone =>
        have hrole := (congrArg Pc.role ht).trans (role_of_pending hp)
        exact absurd ((hs.sound.working_open t k r hrole).symm.trans hdone) (by simp)
  case erasing_stores_nothing =>
    intro t k r out s' ht hstep
    obtain ⟨s₁, pc', hmove, rfl⟩ := move_of_run hstep ht
    exact hmove.storesNothing hs.wellFormed.rep rfl
  case nothing_left => exact hs.nothing_left

/-- One caller is loading a key and another one waits for it. -/
private def joinedLoad : List (Action ℕ ℕ Unit) :=
  [.call 0 (.getOrCompute 1 none), .run 0, .run 0, .run 0, .run 0,
    .call 1 (.getOrCompute 1 none), .run 1, .run 1, .run 1]

theorem inflight_agreement_joinedLoad :
    ∃ s : System CacheParams.twoShards Unit, s.Reachable 3 ∧ s.Agreement ∧
      s.threads 0 = .loading 1 none 0 ∧ s.threads 1 = .waiting 1 0 := by
  let s := (Transition.exec step joinedLoad (init CacheParams.twoShards Unit 3 0)).get (by decide)
  have hs : s.Reachable 3 := reachable_of_exec (Option.some_get _).symm
  exact ⟨s, hs, inflight_agreement hs, rfl, rfl⟩

end System
end MiniRedis
