import MiniRedis.Concurrency.Agreement
import MiniRedis.Concurrency.Retention
import MiniRedis.Lib.Paging

/-!
# A read-through cache against the best schedule

Clients that use the cache to avoid loading call `get` and `get_or_compute`, without a deadline, and
neither `set` nor `del`. Then a value is only stored where the key is missing, however the threads
interleave: the owner of a load is alone with its key. So each shard loads a key again only after as
many other keys as it has room for, and its loads are bounded by those of a cache that knows all
requests in advance and has fewer places.
-/
namespace MiniRedis
variable {Key Value Exn : Type}

/-- The call neither stores by itself nor deletes, and loads without a deadline. -/
def Call.ReadsThrough : Call Key Value → Prop
  | .set .. | .del .. => False
  | .getOrCompute _ ttl => ttl = none
  | .get .. | .cleanupExpired | .activeKeyCount => True

def Action.ReadsThrough : Action Key Value Exn → Prop
  | .call _ c => c.ReadsThrough
  | _ => True

/-- Where a thread can be in such a call. -/
def Pc.ReadsThrough : Pc Key Value Exn → Prop
  | .set .. | .del .. => False
  | .getSample (.compute ttl) _ | .getShared (.compute ttl) _ _
  | .getExclusive (.compute ttl) _ _ => ttl = none
  | .recheck _ ttl | .registered _ ttl _ | .loading _ ttl _ | .loaded _ ttl _ _ => ttl = none
  | _ => True

/-- The key for which the thread is getting a value from its loader. -/
def Pc.fetching : Pc Key Value Exn → Option Key
  | .registered k _ _ | .loading k _ _ | .loaded k _ _ _ => some k
  | _ => none

/-- What the access asks of shard `i`: a key that is found, or one that has been loaded. -/
def Access.request (P : CacheParams Key Value) (i : Fin P.numShards) :
    Access Key Value → Option (Key × Bool)
  | .get k _ (some _) => if shardForKey P k = i then some (k, false) else none
  | .set k _ _ _ _ => if shardForKey P k = i then some (k, true) else none
  | _ => none

/-- The requests that shard `i` serves, in order. -/
def requests (P : CacheParams Key Value) (i : Fin P.numShards) (l : List (Access Key Value)) :
    Paging.Trace Key := l.filterMap (Access.request P i)

variable [DecidableEq Key] {P : CacheParams Key Value} {maxKeys : ℕ}

/-- What is stored has no deadline and was missing, and nothing is deleted. -/
def Access.ReadsThrough (xs : Store P) : Access Key Value → Prop
  | .set k _ ttl _ _ => ttl = none ∧ (xs (shardForKey P k)).lookup k = none
  | .del .. => False
  | _ => True

/-- One thread uses the abstract store to read through. -/
def ReadThrough (P : CacheParams Key Value) (maxKeys : ℕ) (xs : Store P) (x : Access Key Value)
    (ys : Store P) : Prop := Sequential P maxKeys xs x ys ∧ x.ReadsThrough xs

/-- No record has a deadline. -/
def Lasting (xs : Store P) : Prop := ∀ i k r, (xs i).lookup k = some r → r.deadline = none

/-! ## The abstract store retains what it has loaded -/

section Store
variable {xs ys : Store P} {x : Access Key Value} {l : List (Access Key Value)}
  {i : Fin P.numShards} {k : Key} {r : Record Value}

theorem Record.not_expired (h : r.deadline = none) (now : TimePoint) : r.expired now = false := by
  simp [Record.expired, h]

theorem Lasting.step (hl : Lasting xs) (h : ReadThrough P maxKeys xs x ys) : Lasting ys := by
  obtain ⟨h, hx⟩ := h
  cases h with
  | set k v ttl now =>
      obtain rfl : ttl = none := hx.1
      intro i j r hr
      by_cases hi : i = shardForKey P k
      · subst hi
        rw [Function.update_self] at hr
        by_cases hj : j = k
        · subst hj
          have := RecencyList.lookup_of_lookup_bound hr
          rw [AList.lookup_insert] at this
          simp [← Option.some.inj this, storedRecord]
        · exact hl _ j r (RecencyList.lookup_put_of_ne hj hr)
      · rw [Function.update_of_ne hi] at hr
        exact hl i j r hr
  | get k now =>
      exact fun i j r hr => hl i j r (lookup_of_update (fun _ _ => lookup_of_lookedUp) i j r hr)
  | del k => exact absurd hx id
  | purge i now =>
      exact fun i j r hr => hl i j r (lookup_of_update (fun _ _ => lookup_of_liveRecords) i j r hr)

theorem Lasting.run (hl : Lasting xs) (h : Transition.Run (ReadThrough P maxKeys) xs l ys) :
    Lasting ys := h.invariant (fun _ _ _ hstep hl => hl.step hstep) hl

omit [DecidableEq Key] in
theorem exists_of_requests {pre post : Paging.Trace Key} {y : Key × Bool}
    (h : requests P i l = pre ++ y :: post) : ∃ l₁ x l₂, l = l₁ ++ x :: l₂ ∧
      requests P i l₁ = pre ∧ x.request P i = some y ∧ requests P i l₂ = post := by
  obtain ⟨l₀, l', rfl, rfl, h'⟩ := List.filterMap_eq_append_iff.mp h
  obtain ⟨l₁, x, l₂, rfl, hnone, hx, rfl⟩ := List.filterMap_eq_cons_iff.mp h'
  refine ⟨l₀ ++ l₁, x, l₂, by simp, ?_, hx, rfl⟩
  rw [requests, List.filterMap_append, List.filterMap_eq_nil_iff.mpr hnone, List.append_nil]

omit [DecidableEq Key] in
theorem refreshes_of_request {load : Bool} (hx : x.request P i = some (k, load)) :
    shardForKey P k = i ∧ x.Refreshes k := by
  unfold Access.request at hx
  split at hx
  · simp only [Option.ite_none_right_eq_some, Option.some.injEq, Prod.mk.injEq] at hx
    exact ⟨hx.2.1 ▸ hx.1, hx.2.1⟩
  · simp only [Option.ite_none_right_eq_some, Option.some.injEq, Prod.mk.injEq] at hx
    exact ⟨hx.2.1 ▸ hx.1, hx.2.1⟩
  · cases hx

/-- Who has just been served is behind nobody. -/
theorem ahead_of_request {load : Bool} (h : ReadThrough P maxKeys xs x ys) (hl : Lasting xs)
    (hx : x.request P i = some (k, load)) (hpos : 0 < capacityOf P maxKeys i) :
    shardForKey P k = i ∧
      ∃ r : Record Value, r.deadline = none ∧ RecencyList.Ahead k r ∅ (ys i) := by
  obtain ⟨rfl, hrefreshes⟩ := refreshes_of_request hx
  obtain ⟨r, hahead⟩ := System.ahead_of_refreshes h.1 hrefreshes hpos
  exact ⟨rfl, r, hl.step h _ k r hahead.lookup, hahead⟩

theorem request_of_uses {j : Key} (hj : j ∈ x.uses P k) :
    ∃ load, x.request P (shardForKey P k) = some (j, load) := by
  unfold Access.uses at hj
  split at hj
  · split at hj
    · next hother =>
      obtain rfl := Finset.mem_singleton.mp hj
      exact ⟨true, by simp [Access.request, hother.2]⟩
    · simp at hj
  · split at hj
    · next hother =>
      obtain rfl := Finset.mem_singleton.mp hj
      exact ⟨false, by simp [Access.request, hother.2]⟩
    · simp at hj
  · simp at hj

/-- Only requests for other keys of the shard come before the key. -/
theorem usedKeys_subset (k : Key) (l : List (Access Key Value)) :
    usedKeys P k l ⊆ Paging.keys (requests P (shardForKey P k) l) := by
  induction l with
  | nil => simp [usedKeys]
  | cons x l ih =>
      rw [requests, List.filterMap_cons]
      refine Finset.union_subset ?_ (ih.trans ?_)
      · intro j hj
        obtain ⟨load, hx⟩ := request_of_uses hj
        simp [hx]
      · split <;> simp [requests]

/-- Reading through spares every key that is not loaded. -/
theorem spares_of_reads (hl : r.deadline = none) (hx : x.ReadsThrough xs)
    (hne : ∀ load, x.request P (shardForKey P k) ≠ some (k, load)) : x.Spares P k r := by
  cases x with
  | set j v ttl now ok =>
      rintro rfl
      exact hne true (by simp [Access.request])
  | get j now found => exact fun _ => Record.not_expired hl now
  | del j ok => exact absurd hx id
  | purge i now => exact fun _ => Record.not_expired hl now

/-- **A key is loaded again only after as many others as its shard has room for.** -/
theorem retains_requests (h : Transition.Run (ReadThrough P maxKeys) xs l ys) (hl : Lasting xs)
    (i : Fin P.numShards) : Paging.Retains (capacityOf P maxKeys i) (requests P i l) := by
  intro pre k load mid post heq hmid
  by_contra hfew
  have hfew := Nat.lt_of_not_le hfew
  obtain ⟨l₁, x, l₂, rfl, -, hx, h₂⟩ := exists_of_requests heq
  obtain ⟨l₃, y, l₄, rfl, rfl, hy, -⟩ := exists_of_requests h₂
  obtain ⟨zs, hrun, hrest⟩ := h.exists_of_append
  cases hrest with
  | @cons _ us _ _ _ hstep hrest =>
      obtain ⟨rfl, r, hr, hahead⟩ := ahead_of_request hstep (hl.run hrun) hx (by omega)
      obtain ⟨vs, hmiddle, hlast⟩ := hrest.exists_of_append
      have hspare : ∀ z ∈ l₃, z.Spares P k r := by
        intro z hz
        obtain ⟨_, _, hstep⟩ := hmiddle.exists_step hz
        refine spares_of_reads hr hstep.2 ?_
        intro load hload
        exact hmid (Paging.mem_keys.mpr ⟨load, List.mem_filterMap.mpr ⟨z, hz, hload⟩⟩)
      have hused : (∅ ∪ usedKeys P k l₃).card < capacityOf P maxKeys (shardForKey P k) := by
        rw [Finset.empty_union]
        exact (Finset.card_le_card (usedKeys_subset k l₃)).trans_lt hfew
      have hkept := System.ahead_run (hmiddle.mono fun _ _ _ h => h.1) hspare hused hahead
      cases hlast with
      | cons hload _ =>
          cases y with
          | set j v ttl now ok =>
              simp only [Access.request, Option.ite_none_right_eq_some, Option.some.injEq,
                Prod.mk.injEq] at hy
              obtain ⟨-, rfl, -⟩ := hy
              exact absurd (hload.2.2.symm.trans hkept.lookup) (by simp)
          | get j now found => cases found <;> simp [Access.request] at hy
          | del j ok => cases hy
          | purge j now => cases hy

end Store

/-! ## Threads that read through -/

omit [DecidableEq Key] in
theorem readsThrough_start {c : Call Key Value} (h : c.ReadsThrough) :
    (c.start : Pc Key Value Exn).ReadsThrough := by
  cases c <;> exact h

omit [DecidableEq Key] in
theorem owns_of_fetching {pc : Pc Key Value Exn} {k : Key} (h : pc.fetching = some k) :
    ∃ r, pc.role.owns = some (k, r) := by
  cases pc <;> cases h <;> exact ⟨_, rfl⟩

omit [DecidableEq Key] in
theorem length_access_le (clock : TimePoint) (pc pc' : Pc Key Value Exn) :
    (pc.access clock pc').length ≤ 1 := by
  unfold Pc.access
  split <;> simp

/-- What the thread does to the store. -/
theorem readsThrough_access {xs : Store P} {pc : Pc Key Value Exn} (hpc : pc.ReadsThrough)
    (hmissing : ∀ k, pc.fetching = some k → (xs (shardForKey P k)).lookup k = none)
    (clock : TimePoint) (pc' : Pc Key Value Exn) :
    ∀ x ∈ pc.access clock pc', x.ReadsThrough xs := by
  intro x hx
  unfold Pc.access at hx
  split at hx <;> simp only [List.mem_singleton, List.not_mem_nil] at hx
  all_goals subst hx
  case h_6 | h_7 => exact absurd hpc id
  case h_10 => exact ⟨hpc, hmissing _ rfl⟩
  all_goals trivial

namespace System
variable {s s₁ s' : System P Exn} {pc pc' : Pc Key Value Exn}

theorem Move.readsThrough (h : Move s pc s₁ pc') (hidle : pc ≠ .idle) (hpc : pc.ReadsThrough) :
    pc'.ReadsThrough := by
  cases h with
  | call c => exact absurd rfl hidle
  | getSample caller k | sharedFound caller k now => cases caller <;> exact hpc
  | sharedMiss caller k now hk | exclusiveMiss caller k now hk
  | exclusiveExpired caller k now e he hexp => cases caller <;> exact hpc
  | exclusiveHit caller k now e he hlive => cases caller <;> trivial
  | recheckOwn k ttl l hl hfree | load k ttl r | loaderReturn k ttl r v => exact hpc
  | _ => trivial

/-- After the purge there is nothing under the key. -/
theorem lookup_purged {k : Key} {now : TimePoint} {l : Locked Key Value} (h : s.Purged k now l) :
    l.shard.map.lookup k = none := by
  rcases h with ⟨hk, rfl⟩ | ⟨e, he, hexp, rfl⟩
  · exact hk
  · exact AList.lookup_erase k _

/-- Who is fetching the key has found it missing. -/
theorem Move.missing (h : Move s pc s₁ pc') {k : Key}
    (hpc : pc.fetching = some k → s.entry k = none) (hpc' : pc'.fetching = some k) :
    s₁.entry k = none := by
  cases h with
  | call c => cases c <;> cases hpc'
  | sharedMiss caller | exclusiveMiss caller | exclusiveExpired caller | exclusiveHit caller =>
      cases caller <;> cases hpc'
  | recheckOwn j ttl l hl hfree =>
      cases hpc'
      simpa [entry, release] using lookup_purged hl
  | load j ttl r | loaderReturn j ttl r v => exact hpc hpc'
  | _ => cases hpc'

/-- Clients read through, and what is being loaded is not there. -/
structure ReadingThrough (maxKeys : ℕ) (s : System P Exn) : Prop where
  inFlight : s.InFlightSound maxKeys
  reads : ∀ t, (s.threads t).ReadsThrough
  missing : ∀ t k, (s.threads t).fetching = some k → s.entry k = none

namespace ReadingThrough

theorem init (now : TimePoint) : ReadingThrough maxKeys (init P Exn maxKeys now) where
  inFlight := inFlightSound_init now
  reads := fun _ => trivial
  missing := fun _ _ h => by cases h

/-- The move of one thread stores nothing under a key that another is loading. -/
theorem entry_of_other (hs : s.ReadingThrough maxKeys) {t u : ℕ} (htu : u ≠ t)
    (h : Move s (s.threads t) s₁ pc') {k : Key} (hu : (s.threads u).fetching = some k) :
    s₁.entry k = none := by
  have hstoring : ∀ v, (s.threads t).storing ≠ some (k, v) := by
    intro v hv
    have hown : (s.threads t).fetching = some k := by
      have hreads := hs.reads t
      cases hpc : s.threads t <;> rw [hpc] at hv hreads <;> cases hv
      · exact absurd hreads id
      · rfl
    obtain ⟨r, hr⟩ := owns_of_fetching hown
    obtain ⟨r', hr'⟩ := owns_of_fetching hu
    exact htu (hs.inFlight.sound.owner_eq (b := s.board) hr' hr).1
  cases he : s₁.entry k with
  | none => rfl
  | some e =>
      obtain ⟨e₀, he₀, -⟩ := h.record_of_lookup hs.inFlight.wellFormed.rep hstoring he
      exact absurd ((hs.missing u k hu).symm.trans he₀) (by simp)

theorem step (hs : s.ReadingThrough maxKeys) {a : Action Key Value Exn} (h : Step s a s')
    (ha : a.ReadsThrough) : s'.ReadingThrough maxKeys := by
  refine ⟨hs.inFlight.step h, ?_, ?_⟩
  · intro u
    by_cases hu : a.thread = some u
    · by_cases hcall : NoCall u a
      · have hidle := ne_idle_of_step h hu hcall
        rcases step_cases h with ⟨now, rfl, -, -⟩ | ⟨t, s₁, pc', ht, hmove, rfl⟩
        · cases hu
        · obtain rfl : t = u := Option.some.inj (ht.symm.trans hu)
          rw [threads_self_setPc]
          exact hmove.readsThrough hidle (hs.reads t)
      · obtain ⟨c, rfl⟩ : ∃ c, a = .call u c := by simpa [NoCall] using hcall
        rw [threads_of_call h]
        exact readsThrough_start ha
    · rw [threads_of_other h hu]
      exact hs.reads u
  · intro u k hu
    rcases step_cases h with ⟨now, -, -, rfl⟩ | ⟨t, s₁, pc', ht, hmove, rfl⟩
    · exact hs.missing u k hu
    · rw [threads_setPc, hmove.threads_eq] at hu
      split at hu
      · exact hmove.missing (hs.missing t k) hu
      · next htu => exact hs.entry_of_other htu hmove hu

/-- A step of any thread reads the store through. -/
theorem run_access (hs : s.ReadingThrough maxKeys) {a : Action Key Value Exn} (h : Step s a s')
    {xs : Store P} (R : s.cache.Rep xs) (hkeys : s.cache.maxKeys = maxKeys) :
    ∃ ys, Transition.Run (ReadThrough P maxKeys) xs ((s.access a s').map Prod.snd) ys ∧
      s'.cache.Rep ys ∧ s'.cache.maxKeys = maxKeys := by
  obtain ⟨ys, hrun, R', hkeys'⟩ := accounts_step h R hkeys
  refine ⟨ys, ?_, R', hkeys'⟩
  cases ha : a.thread with
  | none =>
      rw [access, ha] at hrun ⊢
      cases hrun
      exact .nil xs
  | some t =>
      have hmap : (s.access a s').map Prod.snd = (s.threads t).access s.clock (s'.threads t) := by
        simp [access, ha, Function.comp_def]
      rw [hmap] at hrun ⊢
      have hmissing : ∀ k, (s.threads t).fetching = some k → (xs (shardForKey P k)).lookup k = none :=
        fun k hk => (R.holds _).lookup_none (hs.missing t k hk)
      have hreads := readsThrough_access (hs.reads t) hmissing s.clock (s'.threads t)
      have hlen := length_access_le s.clock (s.threads t) (s'.threads t)
      -- at most one access
      revert hrun hreads hlen
      generalize (s.threads t).access s.clock (s'.threads t) = l
      intro hrun hreads hlen
      cases hrun with
      | nil => exact .nil xs
      | @cons _ zs _ x l hstep hrest =>
          obtain rfl : l = [] := List.eq_nil_of_length_eq_zero (by simpa using hlen)
          cases hrest
          exact .cons ⟨hstep, hreads x List.mem_cons_self⟩ (.nil ys)

end ReadingThrough

/-- **The loads of a read-through cache.** In any run of threads that only read, and load without a
deadline what is missing, each shard loads at most `cap / (cap + 1 - held)` times as much as whoever
serves its requests with `held` places, knowing all of them in advance, and `cap` keys more. Here
`cap` is what the shard has room for, and whoever does so brings in `n` keys. -/
theorem loads_competitive {now : TimePoint} {as : List (Action Key Value Exn)} {s : System P Exn}
    (h : Transition.exec System.step as (System.init P Exn maxKeys now) = some s)
    (hreads : ∀ a ∈ as, a.ReadsThrough) (i : Fin P.numShards) {τ : Paging.Trace Key}
    (hτ : τ = requests P i ((accesses as (System.init P Exn maxKeys now)).map Prod.snd))
    {held n : ℕ} (hheld : held ≤ capacityOf P maxKeys i) {start stop : Finset Key}
    (hbest : Paging.Schedule held start (τ.map Prod.fst) stop n) :
    (capacityOf P maxKeys i + 1 - held) * Paging.loads τ ≤
      capacityOf P maxKeys i * n + (capacityOf P maxKeys i + 1 - held) * capacityOf P maxKeys i := by
  let R (s : System P Exn) (xs : Store P) : Prop :=
    s.ReadingThrough maxKeys ∧ s.cache.Rep xs ∧ s.cache.maxKeys = maxKeys
  have hstep : ∀ a ∈ as, ∀ (s s' : System P Exn) (xs : Store P), R s xs → step a s = some s' →
      ∃ ys, Transition.Run (ReadThrough P maxKeys) xs ((access s a s').map Prod.snd) ys ∧
        R s' ys := by
    intro a ha s s' xs hR hs'
    obtain ⟨ys, hrun, hRep⟩ := hR.1.run_access hs' hR.2.1 hR.2.2
    exact ⟨ys, hrun, hR.1.step hs' (hreads a ha), hRep⟩
  rw [accesses, Transition.map_collect] at hτ
  obtain ⟨xs, hrun, -⟩ := Transition.run_collect hstep
    ⟨.init now, ShardedCache.Rep.construct maxKeys, rfl⟩ h
  have hlasting : Lasting (fun _ => ∅ : Store P) := fun i k r hr => by simp at hr
  have hretains := retains_requests hrun hlasting i
  rw [← hτ] at hretains
  exact hretains.competitive hheld hbest

/-- With one place, every other key has to be brought in. -/
private theorem swap {x y n : ℕ} {t : Finset ℕ} {xs : List ℕ} (hne : x ≠ y)
    (h : Paging.Schedule 1 {x} xs t n) : Paging.Schedule 1 {y} (x :: xs) t (1 + n) := by
  have hcard : (({x} : Finset ℕ) \ {y}).card = 1 := by
    rw [Finset.sdiff_singleton_eq_erase, Finset.erase_eq_of_notMem (by simpa using hne.symm),
      Finset.card_singleton]
  have hcons := Paging.Schedule.cons (s := {y}) (Finset.mem_singleton_self x) (by simp) h
  rwa [hcard] at hcons

/-- Thread `t` loads a key, while nobody else runs. -/
private def loadAlone (t k v : ℕ) : List (Action ℕ ℕ Unit) :=
  .call t (.getOrCompute k none) :: List.replicate 4 (.run t) ++
    .loaderReturn t v :: List.replicate 3 (.run t)

/-- Three keys of one shard that has room for two, and the first again. -/
private def thrash : List (Action ℕ ℕ Unit) :=
  loadAlone 0 1 5 ++ loadAlone 1 3 6 ++ loadAlone 2 5 7 ++ loadAlone 3 1 5

/-- Against one place, into which everything has to be brought. -/
theorem loads_competitive_thrash :
    (2 + 1 - 1) * Paging.loads [(1, true), (3, true), (5, true), (1, true)] ≤
      2 * 4 + (2 + 1 - 1) * capacityOf CacheParams.twoShards 4 (shardForKey _ 1) := by
  let s₀ := init CacheParams.twoShards Unit 4 0
  let s := (Transition.exec step thrash s₀).get (by decide)
  have hs : Transition.exec step thrash s₀ = some s := (Option.some_get _).symm
  have hreads : ∀ a ∈ thrash, a.ReadsThrough := by
    simp [thrash, loadAlone, Action.ReadsThrough, Call.ReadsThrough]
  have hτ : [(1, true), (3, true), (5, true), (1, true)] =
      requests CacheParams.twoShards (shardForKey _ 1) ((accesses thrash s₀).map Prod.snd) := by
    decide
  have hbest : Paging.Schedule 1 {0} [1, 3, 5, 1] {1} 4 :=
    swap (by decide) (swap (by decide) (swap (by decide) (swap (by decide) (.nil {1}))))
  exact loads_competitive hs hreads (shardForKey _ 1) hτ (by decide) hbest

end System
end MiniRedis
