import MiniRedis.Concurrency.Agreement

/-!
# Stale loads

An owner loads outside every lock and stores what it loaded unconditionally. A `set` or `del` that
takes effect meanwhile is overwritten by the older load, and while the load's record is in flight
later callers join it. This is the only way in which a value can come back: a load that was
unregistered before the `set` or `del` took effect is neither stored nor returned any more.
-/
namespace MiniRedis
variable {Key Value Exn : Type}

/-- The owner of load `(k, r)` has not stored a value yet. -/
def Pc.Unstored (k : Key) (r : RecordId) : Pc Key Value Exn → Prop
  | .registered k' _ r' => k' = k ∧ r' = r
  | .loading k' _ r' => k' = k ∧ r' = r
  | .loaded k' _ r' _ => k' = k ∧ r' = r
  | _ => False

/-- The thread does not wait for load `(k, r)` and has not got a value from it. -/
def Pc.Clean (k : Key) (r : RecordId) : Pc Key Value Exn → Prop
  | .waiting k' r' => (k', r') ≠ (k, r)
  | .done _ source => source ≠ some (k, r)
  | _ => True

theorem owns_of_unstored {pc : Pc Key Value Exn} {k : Key} {r : RecordId}
    (h : pc.Unstored k r) : pc.role.owns = some (k, r) := by
  cases pc with
  | registered k' _ r' | loading k' _ r' | loaded k' _ r' _ =>
      obtain ⟨rfl, rfl⟩ := h
      rfl
  | _ => exact absurd h id

theorem clean_start (c : Call Key Value) (k : Key) (r : RecordId) :
    (c.start : Pc Key Value Exn).Clean k r := by
  cases c <;> trivial

variable [DecidableEq Key] {P : CacheParams Key Value} {maxKeys : ℕ}

namespace System

/-- The key is stored with a value that load `(k, r)` produced. -/
def HoldsLoad (k : Key) (r : RecordId) (s : System P Exn) : Prop :=
  (∃ e, s.entry k = some e) ∧ s.origin k = some r

/-- On the way to `s` a loader has run for record `r` of key `k`. -/
def LoaderStarted (maxKeys : ℕ) (k : Key) (r : RecordId) (s : System P Exn) : Prop :=
  ∃ s₀ as t ttl, s₀.Reachable maxKeys ∧ s₀.threads t = .loading k ttl r ∧
    Transition.Run Step s₀ as s

/-- A call `set(k, v)` or `del(k)` is made in `began`, takes effect in the step from `before` to
`after`, and has returned in `after`. -/
def WriteCall (k : Key) (began before after : System P Exn) : Prop :=
  ∃ t c began' as, (c = .del k ∨ ∃ v ttl, c = .set k v ttl) ∧ Step began (.call t c) began' ∧
    Transition.Run Step began' as before ∧ (∀ a ∈ as, Action.thread a ≠ some t) ∧
    Step before (.run t) after

/-- A step after which thread `t` may still be in the call it was in before. -/
def StepFrom (t : ℕ) (s : System P Exn) (a : Action Key Value Exn) (s' : System P Exn) : Prop :=
  Step s a s' ∧ ¬ (s.threads t).Outside

/-- A call `get(k)` or `get_or_compute(k)` is made in `began` and has returned in `after`, with what
load `source` produced, if a load did. -/
def ReadCall (k : Key) (began after : System P Exn) (source : Option (Load Key)) : Prop :=
  ∃ t c began' as result, (c = .get k ∨ ∃ ttl, c = .getOrCompute k ttl) ∧
    Step began (.call t c) began' ∧ Transition.Run (StepFrom t) began' as after ∧
    after.threads t = .done result source

/-- No value of a loader that started before a `set` or `del` call of its key began is stored once
that call has returned, or returned by a `get` or `get_or_compute` call that begins after it,
unless `mayStore` respectively `mayRead` excuses the load in the state in which the call takes
effect. -/
def NoStaleLoad (P : CacheParams Key Value) (Exn : Type) (maxKeys : ℕ)
    (mayStore mayRead : System P Exn → Key → RecordId → Prop) : Prop :=
  ∀ (began before after : System P Exn) k r, began.Reachable maxKeys →
    LoaderStarted maxKeys k r began → WriteCall k began before after →
    (¬ mayStore before k r → ∀ as s, Transition.Run Step after as s → ¬ s.HoldsLoad k r) ∧
    (¬ mayRead before k r → ∀ as s s' source, Transition.Run Step after as s →
      ReadCall k s s' source → source ≠ some (k, r))

/-! ## A load in flight comes back -/

/-- A caller is in its loader. -/
private def loadingOnce : List (Action ℕ ℕ Unit) :=
  [.call 0 (.getOrCompute 1 none), .run 0, .run 0, .run 0, .run 0]

/-- The loader returns and its value is stored. -/
private def storeLoad : List (Action ℕ ℕ Unit) := [.loaderReturn 0 5, .run 0]

/-- While a key is being loaded it is set to 9, the `set` returns, and then the older loader's 5 is
stored over it. -/
theorem stale_load_wins :
    ¬ NoStaleLoad CacheParams.twoShards Unit 3 (fun _ _ _ => False) (fun _ _ _ => False) := by
  intro h
  let s := (Transition.exec step loadingOnce (init CacheParams.twoShards Unit 3 0)).get (by decide)
  have hs : s.Reachable 3 := reachable_of_exec (Option.some_get _).symm
  let before := (step (.call 1 (.set 1 9 none)) s).get (by decide)
  let after := (step (.run 1) before).get (by decide)
  let u := (Transition.exec step storeLoad after).get (by decide)
  have hloading : s.threads 0 = .loading 1 none 0 := by decide
  have hwrite : WriteCall 1 s before after :=
    ⟨1, .set 1 9 none, before, [], .inr ⟨9, none, rfl⟩, (Option.some_get _).symm, .nil _,
      (by simp), (Option.some_get _).symm⟩
  have hrun : Transition.Run Step after storeLoad u :=
    Transition.run_of_exec (Option.some_get _).symm
  have hentry : (u.entry 1).isSome = true := by decide
  have horigin : u.origin 1 = some 0 := by decide
  exact (h s before after 1 0 hs ⟨s, [], 0, none, hs, hloading, .nil s⟩ hwrite).1 id storeLoad u
    hrun ⟨Option.isSome_iff_exists.mp hentry, horigin⟩

/-! ## No other load does -/

theorem nextRecord_mono {s s' : System P Exn} {a : Action Key Value Exn} (h : Step s a s')
    (hs : s.InFlightSound maxKeys) : s.nextRecord ≤ s'.nextRecord := by
  rcases board_step_or_eq h hs with heq | ⟨t, hboard⟩
  · exact (congrArg SingleFlight.Board.next heq).ge
  · exact hboard.next_mono

theorem nextRecord_mono_run {s s' : System P Exn} {as : List (Action Key Value Exn)}
    (h : Transition.Run Step s as s') (hs : s.InFlightSound maxKeys) :
    s.nextRecord ≤ s'.nextRecord := by
  refine InFlightSound.preserves (Q := fun x => s.nextRecord ≤ x.nextRecord) ?_ h hs le_rfl
  exact fun x a y hxy hx hle => hle.trans (nextRecord_mono hxy hx)

theorem Move.unstored_of {s s₁ : System P Exn} {pc pc' : Pc Key Value Exn} (h : Move s pc s₁ pc')
    {k : Key} {r : RecordId} (hr : r < s.nextRecord) (hpc' : pc'.Unstored k r) :
    pc.Unstored k r := by
  cases h with
  | recheckOwn k' ttl l hl hfree => exact absurd hpc'.2 (Nat.ne_of_gt hr)
  | load | loaderReturn => exact hpc'
  | call c => cases c <;> exact absurd hpc' id
  | sharedMiss caller | exclusiveMiss caller | exclusiveExpired caller | exclusiveHit caller =>
      cases caller <;> exact absurd hpc' id
  | _ => exact absurd hpc' id

/-- Load `(k, r)` was made, nobody is going to store its value, and it is not stored. -/
structure Past (k : Key) (r : RecordId) (s : System P Exn) : Prop where
  created : r < s.nextRecord
  notPending : ∀ t, ¬ (s.threads t).Unstored k r
  notStored : ¬ s.HoldsLoad k r

/-- A move stores the value of no load but the one its owner is about to store. -/
theorem Move.notStored {s s₁ : System P Exn} {pc pc' : Pc Key Value Exn} (h : Move s pc s₁ pc')
    (R : ∃ xs, s.cache.Rep xs) {k : Key} {r : RecordId} (hpc : ¬ pc.Unstored k r)
    (hs : ¬ s.HoldsLoad k r) : ¬ s₁.HoldsLoad k r := by
  rintro ⟨⟨e', he'⟩, horigin⟩
  have other : (∀ v, pc.storing ≠ some (k, v)) → s₁.origin k = s.origin k → False := by
    intro hstore heq
    obtain ⟨e, he, -⟩ := h.record_of_lookup R hstore he'
    exact hs ⟨⟨e, he⟩, heq.symm.trans horigin⟩
  cases h with
  | set k' v ttl =>
      by_cases hk : k = k'
      · subst hk
        rw [origin_store, Function.update_self] at horigin
        cases horigin
      · exact other (by simp [Pc.storing, Ne.symm hk]) (Function.update_of_ne hk ..)
  | loaded k' ttl r' v =>
      by_cases hk : k = k'
      · subst hk
        rw [origin_store, Function.update_self, Option.some.injEq] at horigin
        exact hpc ⟨rfl, horigin⟩
      · exact other (by simp [Pc.storing, Ne.symm hk]) (Function.update_of_ne hk ..)
  | complete k' r' out hp =>
      refine other ?_ rfl
      intro v hv
      cases (storing_of_pending hp).symm.trans hv
  | broken k' r' out out' hp =>
      refine other ?_ rfl
      intro v hv
      cases (storing_of_pending hp).symm.trans hv
  | _ => exact other (by simp [Pc.storing]) rfl

theorem notPending_step {s s' : System P Exn} {a : Action Key Value Exn} (h : Step s a s')
    {k : Key} {r : RecordId} (hr : r < s.nextRecord) (hs : ∀ t, ¬ (s.threads t).Unstored k r) :
    ∀ t, ¬ (s'.threads t).Unstored k r := by
  rcases step_cases h with ⟨now, -, -, rfl⟩ | ⟨u, s₁, pc', -, hmove, rfl⟩
  · exact hs
  · intro t
    rw [threads_setPc, hmove.threads_eq]
    split
    · exact fun hpc' => hs u (hmove.unstored_of hr hpc')
    · exact hs t

theorem Past.step {s s' : System P Exn} {a : Action Key Value Exn} (h : Step s a s')
    (hs : s.InFlightSound maxKeys) {k : Key} {r : RecordId} (hp : s.Past k r) : s'.Past k r := by
  refine ⟨hp.created.trans_le (nextRecord_mono h hs),
    notPending_step h hp.created hp.notPending, ?_⟩
  rcases step_cases h with ⟨now, -, -, rfl⟩ | ⟨u, s₁, pc', -, hmove, rfl⟩
  · exact hp.notStored
  · exact hmove.notStored hs.wellFormed.rep (hp.notPending u) hp.notStored

theorem Past.run {s s' : System P Exn} {as : List (Action Key Value Exn)}
    (h : Transition.Run Step s as s') (hs : s.InFlightSound maxKeys) {k : Key} {r : RecordId}
    (hp : s.Past k r) : s'.Past k r := by
  refine InFlightSound.preserves (Q := fun x => x.Past k r) ?_ h hs hp
  exact fun x a y hxy hx hpast => hpast.step hxy hx

/-- When a `set` or `del` has taken effect, its key holds no load's value. -/
theorem WriteCall.not_holdsLoad {k : Key} {began before after : System P Exn}
    (h : WriteCall k began before after) (r : RecordId) : ¬ after.HoldsLoad k r := by
  obtain ⟨t, c, began', as, hc, hcall, hrun, has, hstep⟩ := h
  have hpc : before.threads t = c.start := (threads_of_others hrun has).trans (threads_of_call hcall)
  obtain ⟨s₁, pc', hmove, rfl⟩ := move_of_run hstep hpc
  rintro ⟨⟨e, he⟩, horigin⟩
  change s₁.entry k = some e at he
  change s₁.origin k = some r at horigin
  rcases hc with rfl | ⟨v, ttl, rfl⟩
  · cases hmove with
    | delAbsent k hk => exact absurd (hk.symm.trans he) (by simp)
    | delPresent k e₀ he₀ =>
        rw [entry_eq_of_unlock (s := before) rfl, if_pos rfl] at he
        simp at he
    | complete k r out hp => cases hp
    | broken k r out out' hp => cases hp
  · cases hmove with
    | set k v ttl =>
        rw [origin_store, Function.update_self] at horigin
        cases horigin
    | complete k r out hp => cases hp
    | broken k r out out' hp => cases hp

/-- A thread that begins a call once load `(k, r)` is past and not in flight stays clean of it. -/
theorem Move.clean {s s₁ : System P Exn} {t : ℕ} {pc' : Pc Key Value Exn}
    (h : Move s (s.threads t) s₁ pc') (hs : s.board.Sound) {k : Key} {r : RecordId}
    (hp : s.Past k r) (hflight : s.flight k ≠ some r) (hpc : (s.threads t).Clean k r) :
    pc'.Clean k r := by
  have hrole : s.board.role t = (s.threads t).role := rfl
  generalize s.threads t = pc at *
  have hit : ∀ j e, s.entry j = some e → s.source j ≠ some (k, r) := by
    intro j e he hsource
    obtain ⟨r', horigin, heq⟩ := Option.map_eq_some_iff.mp hsource
    cases heq
    exact hp.notStored ⟨⟨e, he⟩, horigin⟩
  cases h with
  | exclusiveHit caller j now e he hlive => cases caller <;> exact hit j e he
  | recheckHit j ttl e he hlive => exact hit j e he
  | recheckJoin j ttl l r' hl hr =>
      rintro heq
      cases heq
      exact hflight hr
  | unregister j r' out =>
      intro heq
      cases heq
      exact hflight (hs.owned_on_board t k r (SingleFlight.Board.owns_of_completed hrole))
  | wake j r' out hout =>
      intro heq
      cases heq
      exact hpc rfl
  | call c => exact clean_start c k r
  | sharedMiss caller | exclusiveMiss caller | exclusiveExpired caller =>
      cases caller
      · exact fun heq => by cases heq
      · trivial
  | set | delAbsent | delPresent | cleanupDone | countDone => exact fun heq => by cases heq
  | _ => trivial

/-- A record that is not in flight is never put in flight again. -/
theorem flight_past {s s' : System P Exn} {as : List (Action Key Value Exn)}
    (h : Transition.Run Step s as s') (hs : s.InFlightSound maxKeys) {k : Key} {r : RecordId}
    (hr : r < s.nextRecord) (hflight : s.flight k ≠ some r) : s'.flight k ≠ some r := by
  intro hflight'
  obtain ⟨t, ht⟩ := (hs.run h).sound.board_owned k r hflight'
  exact hflight (hs.sound.owned_on_board t k r (owns_old h hs hr ht))

theorem LoaderStarted.created {k : Key} {r : RecordId} {s : System P Exn}
    (h : LoaderStarted maxKeys k r s) : r < s.nextRecord := by
  obtain ⟨s₀, as, t, ttl, hs₀, ht, hrun⟩ := h
  have howns := SingleFlight.Board.owns_of_working (b := s₀.board) (congrArg Pc.role ht)
  have hlt : r < s₀.nextRecord := hs₀.inFlightSound.sound.owned_created t k r howns
  exact hlt.trans_le (nextRecord_mono_run hrun hs₀.inFlightSound)

/-- What a read call returns when it begins after load `(k, r)` is past and not in flight. -/
theorem ReadCall.source_ne {k : Key} {r : RecordId} {s s' : System P Exn}
    {source : Option (Load Key)} (h : ReadCall k s s' source) (hs : s.InFlightSound maxKeys)
    (hp : s.Past k r) (hflight : s.flight k ≠ some r) : source ≠ some (k, r) := by
  obtain ⟨t, c, began, as, result, -, hcall, hrun, hdone⟩ := h
  have hbegan := hs.step hcall
  have hp' := hp.step hcall hs
  have hflight' : began.flight k ≠ some r :=
    flight_past (.cons hcall (.nil began)) hs hp.created hflight
  have hclean : (began.threads t).Clean k r := by
    rw [threads_of_call hcall]
    exact clean_start c k r
  have hstep : ∀ (x : System P Exn) a y, StepFrom t x a y →
      (x.InFlightSound maxKeys ∧ x.Past k r ∧ x.flight k ≠ some r ∧ (x.threads t).Clean k r) →
      y.InFlightSound maxKeys ∧ y.Past k r ∧ y.flight k ≠ some r ∧ (y.threads t).Clean k r := by
    rintro x a y ⟨hxy, -⟩ ⟨hx, hpx, hfx, hcx⟩
    refine ⟨hx.step hxy, hpx.step hxy hx, flight_past (.cons hxy (.nil y)) hx hpx.created hfx, ?_⟩
    rcases step_cases hxy with ⟨now, -, -, rfl⟩ | ⟨u, x₁, pc', -, hmove, rfl⟩
    · exact hcx
    · rw [threads_setPc, hmove.threads_eq]
      split
      · next htu =>
        subst htu
        exact hmove.clean hx.sound hpx hfx hcx
      · exact hcx
  have hclean' := (hrun.invariant hstep ⟨hbegan, hp', hflight', hclean⟩).2.2.2
  rw [hdone] at hclean'
  exact hclean'

/-- **No load but the one in flight comes back.** A load whose value is stored when a `set` or `del`
of its key takes effect is not stored after it; and a load that is not in flight then is neither
stored nor returned by a later `get` or `get_or_compute`. -/
theorem no_stale_load (P : CacheParams Key Value) (Exn : Type) (maxKeys : ℕ) :
    NoStaleLoad P Exn maxKeys (fun s k r => ∃ t, (s.threads t).Unstored k r)
      (fun s k r => s.flight k = some r) := by
  intro began before after k r hbegan hstarted hwrite
  have hwrite' := hwrite
  obtain ⟨t, c, began', as, -, hcall, hrun, -, hstep⟩ := hwrite'
  have hbegan' := hbegan.inFlightSound.step hcall
  have hbefore : before.InFlightSound maxKeys := hbegan'.run hrun
  have hafter := hbefore.step hstep
  have hcreated : r < before.nextRecord :=
    hstarted.created.trans_le ((nextRecord_mono hcall hbegan.inFlightSound).trans
      (nextRecord_mono_run hrun hbegan'))
  have hpast : (∀ t, ¬ (before.threads t).Unstored k r) → after.Past k r := fun hnone =>
    ⟨hcreated.trans_le (nextRecord_mono hstep hbefore), notPending_step hstep hcreated hnone,
      hwrite.not_holdsLoad r⟩
  refine ⟨?_, ?_⟩
  · intro hnone bs s hbs
    exact ((hpast (not_exists.mp hnone)).run hbs hafter).notStored
  · intro hflight bs s s' source hbs hread
    have hnone : ∀ t, ¬ (before.threads t).Unstored k r := fun t ht =>
      hflight (hbefore.sound.owned_on_board t k r (owns_of_unstored ht))
    have hp := hpast hnone
    have hflight' : after.flight k ≠ some r :=
      flight_past (.cons hstep (.nil after)) hbefore hcreated hflight
    exact hread.source_ne (hafter.run hbs) (hp.run hbs hafter)
      (flight_past hbs hafter hp.created hflight')

/-- The loader returns, its value is stored and the record is erased. -/
private def finishLoad : List (Action ℕ ℕ Unit) := [.loaderReturn 0 5, .run 0, .run 0, .run 0]

theorem no_stale_load_finished :
    ∃ began before after : System CacheParams.twoShards Unit,
      began.Reachable 3 ∧ began.HoldsLoad 1 0 ∧ WriteCall 1 began before after ∧
        (∀ as s, Transition.Run Step after as s → ¬ s.HoldsLoad 1 0) ∧
        ∀ as s s' source, Transition.Run Step after as s → ReadCall 1 s s' source →
          source ≠ some (1, 0) := by
  let s := (Transition.exec step loadingOnce (init CacheParams.twoShards Unit 3 0)).get (by decide)
  have hs : s.Reachable 3 := reachable_of_exec (Option.some_get _).symm
  let began := (Transition.exec step finishLoad s).get (by decide)
  have hfinish : Transition.Run Step s finishLoad began :=
    Transition.run_of_exec (Option.some_get _).symm
  have hbegan : began.Reachable 3 := by
    obtain ⟨now, as, hrun⟩ := hs
    exact ⟨now, as ++ finishLoad, hrun.append hfinish⟩
  let before := (step (.call 1 (.set 1 9 none)) began).get (by decide)
  have hcall : Step began (.call 1 (.set 1 9 none)) before := (Option.some_get _).symm
  let after := (step (.run 1) before).get (by decide)
  have hwrite : WriteCall 1 began before after :=
    ⟨1, .set 1 9 none, before, [], .inr ⟨9, none, rfl⟩, hcall, .nil _, (by simp),
      (Option.some_get _).symm⟩
  have hloading : s.threads 0 = .loading 1 none 0 := by decide
  have hentry : (began.entry 1).isSome = true := by decide
  have horigin : began.origin 1 = some 0 := by decide
  have hflight : before.flight 1 ≠ some 0 := by decide
  have hnone : ¬ ∃ t, (before.threads t).Unstored 1 0 := by
    rintro ⟨t, ht⟩
    have hsound := (hbegan.inFlightSound.step hcall).sound
    exact hflight (hsound.owned_on_board t 1 0 (owns_of_unstored ht))
  obtain ⟨hstored, hread⟩ := no_stale_load CacheParams.twoShards Unit 3 began before after 1 0 hbegan
    ⟨s, finishLoad, 0, none, hs, hloading, hfinish⟩ hwrite
  exact ⟨began, before, after, hbegan, ⟨Option.isSome_iff_exists.mp hentry, horigin⟩, hwrite,
    hstored hnone, hread hflight⟩

end System
end MiniRedis
