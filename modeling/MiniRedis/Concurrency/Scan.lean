import MiniRedis.Concurrency.Linearization

/-!
# Calls that go from shard to shard

`active_key_count` and `cleanup_expired` read the clock once and then lock one shard after the other,
while other threads go on. So a count need not be the number of keys at any one moment, and a
clean-up may leave entries that have expired. But each key is looked at once, at some moment of the
call, and with that one reading.
-/
namespace MiniRedis
variable {Key Value Exn : Type} [DecidableEq Key] {P : CacheParams Key Value} {maxKeys : ℕ}

namespace System
variable {s s₁ s' : System P Exn} {V : System P Exn → Prop} {now : TimePoint} {i : ℕ}

/-- The key is stored, and not expired at `now`. -/
def LiveAt (now : TimePoint) (k : Key) (s : System P Exn) : Prop :=
  ∃ e, s.entry k = some e ∧ isExpired e now = false

/-- In the first `i` shards `total` keys have been counted: each was live at some moment, and those
that were live all the time are among them. `V` are the moments. -/
def Counted (V : System P Exn → Prop) (now : TimePoint) (i total : ℕ) : Prop :=
  ∃ counted : Finset Key, counted.card = total ∧
    (∀ k ∈ counted, (shardForKey P k).val < i ∧ ∃ u, V u ∧ u.LiveAt now k) ∧
    ∀ k, (shardForKey P k).val < i → (∀ u, V u → u.LiveAt now k) → k ∈ counted

/-- Each key of the first `i` shards was, at some moment, not stored with a deadline that has
passed. -/
def Cleaned (V : System P Exn → Prop) (now : TimePoint) (i : ℕ) : Prop :=
  ∀ k, (shardForKey P k).val < i → ∃ u, V u ∧ ∀ e, u.entry k = some e → isExpired e now = false

/-- How far a call has come that goes from shard to shard, with a clock reading from one of the
moments. -/
def Swept (V : System P Exn → Prop) : Pc Key Value Exn → Prop
  | .count now i total => (∃ v, V v ∧ v.clock = now) ∧ Counted V now i total
  | .cleanup now i => (∃ v, V v ∧ v.clock = now) ∧ Cleaned V now i
  | .done (.counted n) _ => ∃ v, V v ∧ Counted V v.clock P.numShards n
  | .done .cleaned _ => ∃ v, V v ∧ Cleaned V v.clock P.numShards
  | _ => True

/-! ## One shard -/

/-- The keys that a shard counts. -/
def activeIn (s : System P Exn) (now : TimePoint) (i : Fin P.numShards) : Finset Key :=
  (((s.cache.shards i).map.entries.filter fun x => !isExpired x.2 now).map Sigma.fst).toFinset

theorem card_activeIn (s : System P Exn) (now : TimePoint) (i : Fin P.numShards) :
    (s.activeIn now i).card = (s.cache.shards i).activeKeys now := by
  have hnodup : (((s.cache.shards i).map.entries.filter fun x => !isExpired x.2 now).map
      Sigma.fst).Nodup :=
    (List.filter_sublist.map Sigma.fst).nodup (s.cache.shards i).map.nodupKeys
  rw [activeIn, List.toFinset_card_of_nodup hnodup, List.length_map, Shard.activeKeys]

theorem mem_activeIn (R : ∃ xs, s.cache.Rep xs) {i : Fin P.numShards} {k : Key} :
    k ∈ s.activeIn now i ↔ shardForKey P k = i ∧ s.LiveAt now k := by
  obtain ⟨xs, R⟩ := R
  simp only [activeIn, List.mem_toFinset, List.mem_map, List.mem_filter, Bool.not_eq_true']
  constructor
  · rintro ⟨⟨k, e⟩, ⟨he, hlive⟩, rfl⟩
    have hlookup := AList.mem_lookup_iff.mpr he
    have hhome : shardForKey P k = i := R.lookup_home hlookup
    subst hhome
    exact ⟨rfl, e, hlookup, hlive⟩
  · rintro ⟨rfl, e, he, hlive⟩
    exact ⟨⟨k, e⟩, ⟨AList.mem_lookup_iff.mp he, hlive⟩, rfl⟩

theorem Counted.zero (V : System P Exn → Prop) (now : TimePoint) : Counted V now 0 0 :=
  ⟨∅, rfl, by simp, by simp⟩

/-- The keys of a shard are counted. -/
theorem Counted.succ {total : ℕ} (h : Counted V now i total) (R : ∃ xs, s.cache.Rep xs) (hs : V s)
    (hi : i < P.numShards) :
    Counted V now (i + 1) (total + (s.cache.shards ⟨i, hi⟩).activeKeys now) := by
  obtain ⟨counted, rfl, hsome, hall⟩ := h
  refine ⟨counted ∪ s.activeIn now ⟨i, hi⟩, ?_, ?_, ?_⟩
  · rw [Finset.card_union_of_disjoint, card_activeIn]
    refine Finset.disjoint_left.mpr ?_
    intro k hk hki
    have hhome := congrArg Fin.val ((mem_activeIn R).mp hki).1
    have := (hsome k hk).1
    simp only at hhome
    omega
  · intro k hk
    rcases Finset.mem_union.mp hk with hk | hk
    · exact ⟨Nat.lt_succ_of_lt (hsome k hk).1, (hsome k hk).2⟩
    · obtain ⟨hhome, hlive⟩ := (mem_activeIn R).mp hk
      exact ⟨by rw [hhome]; exact Nat.lt_succ_self i, s, hs, hlive⟩
  · intro k hk hlive
    rw [Finset.mem_union]
    rcases Nat.lt_succ_iff_lt_or_eq.mp hk with hk | hk
    · exact .inl (hall k hk hlive)
    · exact .inr ((mem_activeIn R).mpr ⟨Fin.ext hk, hlive s hs⟩)

theorem Cleaned.zero (V : System P Exn → Prop) (now : TimePoint) : Cleaned V now 0 :=
  fun _ hk => absurd hk (Nat.not_lt_zero _)

/-- A shard is cleaned up. -/
theorem Cleaned.succ (h : Cleaned V now i) (R : ∃ xs, s.cache.Rep xs) (hi : i < P.numShards)
    (hs' : V s') (hcache : s'.cache = s.cache.cleanupShard now ⟨i, hi⟩) :
    Cleaned V now (i + 1) := by
  intro k hk
  rcases Nat.lt_succ_iff_lt_or_eq.mp hk with hk | hk
  · exact h k hk
  · refine ⟨s', hs', ?_⟩
    intro e he
    obtain ⟨xs, R⟩ := R
    have R' := R.cleanupShard now ⟨i, hi⟩
    rw [← hcache] at R'
    have hlookup := (R'.holds (shardForKey P k)).lookup_some he
    obtain rfl : i = (shardForKey P k).val := hk.symm
    rw [Function.update_self, liveRecords, AList.lookup_filterEntries,
      Option.filter_eq_some_iff] at hlookup
    simpa [expired_record] using hlookup.2

/-! ## The calls -/

/-- A count is not over before the last shard. -/
theorem last_of_count {a : Action Key Value Exn} (h : Step s a s') {t : ℕ}
    (ha : a.thread = some t) {total n : ℕ} {source : Option (Load Key)}
    (hpc : s.threads t = .count now i total) (hpc' : s'.threads t = .done (.counted n) source) :
    P.numShards ≤ i := by
  by_contra hi
  cases a with
  | tick now => cases ha
  | run u =>
      cases ha
      simp only [Step, step, runThread, hpc, Nat.not_le.mp hi, dif_pos, Option.some.injEq] at h
      rw [← h, threads_self_setPc] at hpc'
      cases hpc'
  | call u c | loaderReturn u v | loaderThrow u exn =>
      cases ha
      simp [Step, step, hpc] at h

theorem swept_start (c : Call Key Value) : Swept V (c.start : Pc Key Value Exn) := by
  cases c <;> trivial

/-- A move of the thread. -/
theorem Move.swept {t : ℕ} {pc pc' : Pc Key Value Exn} (h : Move s pc s₁ pc')
    (R : ∃ xs, s.cache.Rep xs) (hs : V s) (hs' : V (s₁.setPc t pc'))
    (hcleaned : ∀ now i, pc = .cleanup now i → pc' = .done .cleaned none → P.numShards ≤ i)
    (hcounted : ∀ now i total n, pc = .count now i total → pc' = .done (.counted n) none →
      P.numShards ≤ i) (hpc : Swept V pc) : Swept V pc' := by
  cases h with
  | call c => exact swept_start c
  | sharedMiss caller | exclusiveMiss caller | exclusiveExpired caller | exclusiveHit caller =>
      cases caller <;> trivial
  | cleanupSample => exact ⟨⟨s, hs, rfl⟩, .zero V s.clock⟩
  | cleanup now i hi => exact ⟨hpc.1, hpc.2.succ R hi hs' rfl⟩
  | cleanupDone now i =>
      obtain ⟨⟨v, hv, rfl⟩, hclean⟩ := hpc
      have hlast := hcleaned _ i rfl rfl
      exact ⟨v, hv, fun k hk => hclean k (hk.trans_le hlast)⟩
  | countSample => exact ⟨⟨s, hs, rfl⟩, .zero V s.clock⟩
  | count now i total hi => exact ⟨hpc.1, hpc.2.succ R hs hi⟩
  | countDone now i total =>
      obtain ⟨⟨v, hv, rfl⟩, counted, hcard, hsome, hall⟩ := hpc
      have hlast := hcounted _ i total total rfl rfl
      exact ⟨v, hv, counted, hcard, fun k hk => ⟨(shardForKey P k).isLt, (hsome k hk).2⟩,
        fun k hk => hall k (hk.trans_le hlast)⟩
  | _ => trivial

/-- A step of any thread. -/
theorem swept_step {a : Action Key Value Exn} (h : Step s a s') {t : ℕ} (hcall : NoCall t a)
    (R : ∃ xs, s.cache.Rep xs) (hs : V s) (hs' : V s') (hpc : Swept V (s.threads t)) :
    Swept V (s'.threads t) := by
  by_cases ha : a.thread = some t
  · have hcleaned : ∀ now i, s.threads t = .cleanup now i → s'.threads t = .done .cleaned none →
        P.numShards ≤ i := fun now i => last_of_step h ha
    have hcounted : ∀ now i total n, s.threads t = .count now i total →
        s'.threads t = .done (.counted n) none → P.numShards ≤ i :=
      fun now i total n => last_of_count h ha
    rcases step_cases h with ⟨now, rfl, -, -⟩ | ⟨u, s₁, pc', hu, hmove, rfl⟩
    · cases ha
    · obtain rfl : u = t := Option.some.inj (hu.symm.trans ha)
      rw [threads_self_setPc] at hcleaned hcounted ⊢
      exact hmove.swept R hs hs' hcleaned hcounted hpc
  · rw [threads_of_other h ha]
    exact hpc

/-- **Counts and clean-ups are right up to what happens meanwhile.** Take a call that starts in `s₁`
and has returned, and the states of the run since then. One of them has the clock reading it works
with. If it counts `n` keys, these are `n` keys each of which was live in some of the states, and
every key that was live in all of them is one of them. If it cleans up, no key was in all of the
states stored with a deadline that the reading has reached. -/
theorem sweeps_consistent {start : TimePoint} {as₁ as₂ : List (Action Key Value Exn)}
    {c : Call Key Value} {t : ℕ} (h₁ : Transition.exec step as₁ (init P Exn maxKeys start) = some s₁)
    (hs : Step s₁ (.call t c) s) (h₂ : Transition.exec step as₂ s = some s')
    (hcall : ∀ a ∈ as₂, NoCall t a) :
    (∀ n source, s'.threads t = .done (.counted n) source →
      ∃ v ∈ Transition.visited step as₂ s, ∃ counted : Finset Key, counted.card = n ∧
        (∀ k ∈ counted, ∃ u ∈ Transition.visited step as₂ s, u.LiveAt v.clock k) ∧
        ∀ k, (∀ u ∈ Transition.visited step as₂ s, u.LiveAt v.clock k) → k ∈ counted) ∧
    ∀ source, s'.threads t = .done .cleaned source →
      ∃ v ∈ Transition.visited step as₂ s, ∀ k, ∃ u ∈ Transition.visited step as₂ s,
        ∀ e, u.entry k = some e → isExpired e v.clock = false := by
  have W : s.WellFormed maxKeys := ((reachable_of_exec h₁).wellFormed).step hs
  have hswept : s'.WellFormed maxKeys ∧
      Swept (fun u => u ∈ Transition.visited step as₂ s) (s'.threads t) := by
    refine Transition.invariant_of_visited (Q := fun u => u.WellFormed maxKeys ∧
      Swept (fun u => u ∈ Transition.visited step as₂ s) (u.threads t)) ?_ ⟨W, ?_⟩ h₂
    · intro a ha u v hu hv hQ hstep
      exact ⟨hQ.1.step hstep, swept_step hstep (hcall a ha) hQ.1.rep hu hv hQ.2⟩
    · rw [threads_of_call hs]
      exact swept_start c
  refine ⟨?_, ?_⟩
  · intro n source hdone
    have hresult := hswept.2
    rw [hdone] at hresult
    obtain ⟨v, hv, counted, hcard, hsome, hall⟩ := hresult
    exact ⟨v, hv, counted, hcard, fun k hk => (hsome k hk).2,
      fun k hk => hall k (shardForKey P k).isLt hk⟩
  · intro source hdone
    have hresult := hswept.2
    rw [hdone] at hresult
    obtain ⟨v, hv, hclean⟩ := hresult
    exact ⟨v, hv, fun k => hclean k (shardForKey P k).isLt⟩

/-- A key is stored, and thread 1 is about to count. -/
private def oneKey : List (Action ℕ ℕ Unit) := [.call 0 (.set 0 5 none), .run 0, .run 0]

/-- Between the two shards the key is deleted, and another is stored. -/
private def exchange : List (Action ℕ ℕ Unit) :=
  [.run 1, .run 1, .call 0 (.del 0), .run 0, .run 0, .call 0 (.set 1 6 none), .run 0, .run 1, .run 1]

/-- Two keys are counted. At no moment were there two. -/
theorem sweeps_consistent_exchange :
    ∃ s s' : System CacheParams.twoShards Unit,
      Transition.exec step exchange s = some s' ∧ s'.threads 1 = .done (.counted 2) none ∧
      (∀ u ∈ Transition.visited step exchange s, u.cache.activeKeyCount 0 ≤ 1) ∧
      ∃ v ∈ Transition.visited step exchange s, ∃ counted : Finset ℕ, counted.card = 2 ∧
        (∀ k ∈ counted, ∃ u ∈ Transition.visited step exchange s, u.LiveAt v.clock k) ∧
        ∀ k, (∀ u ∈ Transition.visited step exchange s, u.LiveAt v.clock k) → k ∈ counted := by
  let s₁ := (Transition.exec step oneKey (init CacheParams.twoShards Unit 4 0)).get (by decide)
  let s := (step (.call 1 .activeKeyCount) s₁).get (by decide)
  let s' := (Transition.exec step exchange s).get (by decide)
  have h₁ : Transition.exec step oneKey (init CacheParams.twoShards Unit 4 0) = some s₁ :=
    (Option.some_get _).symm
  have hs : step (.call 1 .activeKeyCount) s₁ = some s := (Option.some_get _).symm
  have h₂ : Transition.exec step exchange s = some s' := (Option.some_get _).symm
  have hcall : ∀ a ∈ exchange, NoCall 1 a := by simp [exchange, NoCall]
  have hdone : s'.threads 1 = .done (.counted 2) none := by decide
  exact ⟨s, s', h₂, hdone, by decide, (sweeps_consistent h₁ hs h₂ hcall).1 2 none hdone⟩

end System
end MiniRedis
