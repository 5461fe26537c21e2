import Mathlib.Data.Finset.Card
import Mathlib.Data.List.Infix
import Mathlib.Tactic.Ring

/-!
# Loads against the best schedule

A cache that serves requests one by one loads a key when it does not hold it. Nothing is assumed of
it but what it has to do with recency: a key that has to be loaded again was pushed out by `k` other
keys. Whoever knows all requests in advance and decides freely what to keep in `h` places cannot do
much better: between two loads of the same key, or any `k` loads, enough different keys are requested
that some of them do not fit.

## Main definitions

* `Schedule h` — serve requests with `h` places and count what is brought in.
* `Retains k` — a key is loaded again only after `k` others have been requested.

## Main results

* `Schedule.card_le` — whoever serves requests brings in the keys he does not have.
* `Retains.loads_le` — requests for few keys load each of them at most once.
* `Retains.competitive` — the loads of a cache against those of any schedule.
-/
namespace Paging
variable {κ : Type} [DecidableEq κ]

/-- `Schedule h s xs t n`: who holds the keys `s` serves the requests `xs`, never holds more than `h`
keys, ends with `t` and has brought in `n`. What else he brings in or drops is up to him. -/
inductive Schedule (h : ℕ) : Finset κ → List κ → Finset κ → ℕ → Prop
  | nil (s : Finset κ) : Schedule h s [] s 0
  | cons {s v t : Finset κ} {x : κ} {xs : List κ} {n : ℕ} (hx : x ∈ v) (hcard : v.card ≤ h)
      (hrest : Schedule h v xs t n) : Schedule h s (x :: xs) t ((v \ s).card + n)

/-- Requests, each with whether it was a load. -/
abbrev Trace (κ : Type) := List (κ × Bool)

/-- The keys that are requested. -/
def keys (τ : Trace κ) : Finset κ := (τ.map Prod.fst).toFinset

/-- The number of loads. -/
def loads (τ : Trace κ) : ℕ := τ.countP Prod.snd

/-- Between a request for a key and the next one, if that has to load it, `k` others are requested. -/
def Retains (k : ℕ) (τ : Trace κ) : Prop :=
  ∀ pre x b mid post, τ = pre ++ (x, b) :: (mid ++ (x, true) :: post) → x ∉ keys mid →
    k ≤ (keys mid).card

/-! ## Schedules -/

namespace Schedule
variable {h n : ℕ} {s t : Finset κ} {xs ys : List κ}

/-- **Whoever serves requests brings in what he does not have.** -/
theorem card_le (H : Schedule h s xs t n) : (xs.toFinset \ s).card ≤ n := by
  induction H with
  | nil s => simp
  | @cons s v t x xs n hx hcard _ ih =>
      have hsub : (x :: xs).toFinset \ s ⊆ (v \ s) ∪ (xs.toFinset \ v) := by
        intro y hy
        simp only [List.toFinset_cons, Finset.mem_sdiff, Finset.mem_insert, Finset.mem_union] at hy ⊢
        by_cases hheld : y ∈ v
        · exact .inl ⟨hheld, hy.2⟩
        · rcases hy.1 with rfl | hmem
          · exact absurd hx hheld
          · exact .inr ⟨hmem, hheld⟩
      calc ((x :: xs).toFinset \ s).card ≤ ((v \ s) ∪ (xs.toFinset \ v)).card :=
            Finset.card_le_card hsub
        _ ≤ (v \ s).card + (xs.toFinset \ v).card := Finset.card_union_le _ _
        _ ≤ (v \ s).card + n := Nat.add_le_add_left ih _

theorem exists_of_append (H : Schedule h s (xs ++ ys) t n) :
    ∃ v m m', Schedule h s xs v m ∧ Schedule h v ys t m' ∧ n = m + m' := by
  induction xs generalizing s n with
  | nil => exact ⟨s, 0, n, .nil s, H, (Nat.zero_add n).symm⟩
  | cons x xs ih =>
      cases H with
      | cons hx hcard hrest =>
          obtain ⟨v, m, m', hfirst, hsecond, rfl⟩ := ih hrest
          exact ⟨v, _, m', .cons hx hcard hfirst, hsecond, (Nat.add_assoc _ _ _).symm⟩

/-- The last request is held. -/
theorem held {x : κ} (H : Schedule h s (xs ++ [x]) t n) : x ∈ t ∧ t.card ≤ h := by
  obtain ⟨v, m, m', -, hlast, -⟩ := H.exists_of_append
  cases hlast with
  | cons hx hcard hrest =>
      cases hrest
      exact ⟨hx, hcard⟩

end Schedule

/-! ## Loads -/

@[simp] theorem mem_keys {x : κ} {τ : Trace κ} : x ∈ keys τ ↔ ∃ b, (x, b) ∈ τ := by simp [keys]

@[simp] theorem keys_append (τ τ' : Trace κ) : keys (τ ++ τ') = keys τ ∪ keys τ' := by simp [keys]

@[simp] theorem keys_cons (x : κ × Bool) (τ : Trace κ) : keys (x :: τ) = insert x.1 (keys τ) := by
  simp [keys]

omit [DecidableEq κ] in
theorem loads_cons (x : κ × Bool) (τ : Trace κ) : loads (x :: τ) = loads τ + x.2.toNat := by
  cases h : x.2 <;> simp [loads, h]

/-- Who was requested was requested a last time. -/
theorem exists_last {x : κ} {τ : Trace κ} (h : x ∈ keys τ) :
    ∃ pre b mid, τ = pre ++ (x, b) :: mid ∧ x ∉ keys mid := by
  induction τ with
  | nil => simp [keys] at h
  | cons y τ ih =>
      by_cases hx : x ∈ keys τ
      · obtain ⟨pre, b, mid, rfl, hmid⟩ := ih hx
        exact ⟨y :: pre, b, mid, rfl, hmid⟩
      · obtain rfl : x = y.1 := by simpa [hx] using h
        exact ⟨[], y.2, τ, rfl, hx⟩

omit [DecidableEq κ] in
/-- A trace with more than `m` loads has a load after which it has had `m + 1`. -/
theorem exists_load {τ : Trace κ} {m : ℕ} (h : m < loads τ) :
    ∃ pre x post, τ = pre ++ (x, true) :: post ∧ loads pre = m := by
  induction τ using List.reverseRecOn with
  | nil => simp [loads] at h
  | append_singleton τ y ih =>
      by_cases hm : m < loads τ
      · obtain ⟨pre, x, post, rfl, hpre⟩ := ih hm
        exact ⟨pre, x, post ++ [y], by simp, hpre⟩
      · obtain ⟨x, load⟩ := y
        have hload : load = true ∧ loads τ = m := by
          cases load <;> simp_all [loads] <;> omega
        obtain ⟨rfl, rfl⟩ := hload
        exact ⟨τ, x, [], by simp, rfl⟩

namespace Retains
variable {k : ℕ} {τ w : Trace κ} {p : κ} {b : Bool}

theorem of_window (H : Retains k τ) (hw : w <:+: τ) : Retains k w := by
  obtain ⟨front, back, rfl⟩ := hw
  rintro pre x b mid post rfl
  exact H (front ++ pre) x b mid (post ++ back) (by simp)

/-- Where fewer than `k` keys besides `p` are requested after `p`, what is loaded has not been
requested since `p`. -/
theorem notMem_of_load {x : κ} {post : Trace κ} (H : Retains k ((p, b) :: (w ++ (x, true) :: post)))
    (hfew : ((insert x (keys w)).erase p).card < k) : x ∉ insert p (keys w) := by
  intro hx
  have hold : x ∈ keys ((p, b) :: w) := by simpa only [keys_cons] using hx
  obtain ⟨pre, c, mid, heq, hmid⟩ := exists_last hold
  have hk : k ≤ (keys mid).card := H pre x c mid post (by rw [← List.cons_append, heq]; simp) hmid
  have hmem : keys mid ⊆ insert p (keys w) := by
    have hkeys : insert p (keys w) = keys (pre ++ (x, c) :: mid) := by rw [← heq, keys_cons]
    rw [hkeys, keys_append, keys_cons]
    exact (Finset.subset_insert ..).trans Finset.subset_union_right
  -- `mid` is about keys other than `x`, so it misses one of the few
  have hsub : insert x (keys mid) ⊆ insert p ((insert x (keys w)).erase p) := by
    intro y hy
    rcases Finset.mem_insert.mp hy with rfl | hy
    · by_cases hp : y = p <;> simp [hp]
    · have := hmem hy
      by_cases hp : y = p <;> simp_all
  have hcard := Finset.card_le_card hsub
  rw [Finset.card_insert_of_notMem hmid] at hcard
  have hinsert := Finset.card_insert_le p ((insert x (keys w)).erase p)
  omega

/-- **Requests for few keys load each of them at most once**, and the key requested before them not
at all. -/
theorem loads_le (H : Retains k ((p, b) :: w)) (hfew : ((keys w).erase p).card < k) :
    loads w ≤ ((keys w).erase p).card := by
  induction w using List.reverseRecOn with
  | nil => simp [loads]
  | append_singleton w x ih =>
      obtain ⟨x, load⟩ := x
      have hkeys : keys (w ++ [(x, load)]) = insert x (keys w) := by
        rw [keys_append, keys_cons, Finset.union_insert]
        simp [keys]
      rw [hkeys] at hfew ⊢
      have hle : ((keys w).erase p).card ≤ ((insert x (keys w)).erase p).card :=
        Finset.card_le_card (Finset.erase_subset_erase p (Finset.subset_insert x _))
      have hinit : loads w ≤ ((keys w).erase p).card :=
        ih (H.of_window (List.prefix_append _ _ |>.isInfix)) (by omega)
      cases load with
      | false =>
          have : loads (w ++ [(x, false)]) = loads w := by simp [loads]
          omega
      | true =>
          have hnew : x ∉ insert p (keys w) := notMem_of_load H hfew
          have hone : loads (w ++ [(x, true)]) = loads w + 1 := by simp [loads]
          rw [Finset.mem_insert, not_or] at hnew
          rw [hone, Finset.erase_insert_of_ne hnew.1, Finset.card_insert_of_notMem]
          · omega
          · exact fun hmem => hnew.2 (Finset.mem_of_mem_erase hmem)

/-- A phase: up to the `k`-th load after `p`, a schedule that holds `p` and has `h` places brings in
at least `k + 1 - h` keys. -/
theorem phase_le {h n : ℕ} {s t : Finset κ} (H : Retains k ((p, b) :: w)) (hk : k ≤ loads w)
    (hp : p ∈ s) (hcard : s.card ≤ h) (hs : Schedule h s (w.map Prod.fst) t n) : k + 1 - h ≤ n := by
  have hmany : k ≤ ((keys w).erase p).card := by
    by_contra hfew
    have := H.loads_le (Nat.lt_of_not_le hfew)
    omega
  have hsub : (keys w).erase p \ s.erase p ⊆ keys w \ s := by
    intro x hx
    simp only [Finset.mem_sdiff, Finset.mem_erase, not_and] at hx ⊢
    exact ⟨hx.1.2, hx.2 hx.1.1⟩
  have hpos := Finset.card_pos.mpr ⟨p, hp⟩
  have herase := Finset.card_erase_of_mem hp
  calc k + 1 - h ≤ ((keys w).erase p).card - (s.erase p).card := by omega
    _ ≤ ((keys w).erase p \ s.erase p).card := Finset.le_card_sdiff _ _
    _ ≤ (keys w \ s).card := Finset.card_le_card hsub
    _ ≤ n := hs.card_le

/-- Phase by phase, from a request that the schedule has served. -/
theorem loads_le_of_held {h n : ℕ} {s t : Finset κ} (H : Retains k ((p, b) :: w)) (hp : p ∈ s)
    (hcard : s.card ≤ h) (hhk : h ≤ k) (hs : Schedule h s (w.map Prod.fst) t n) :
    (k + 1 - h) * (loads w + 1) ≤ k * n + (k + 1 - h) * k := by
  induction hlen : w.length using Nat.strong_induction_on generalizing p b w s n with
  | _ len ih =>
      have hpos : 0 < k := (Finset.card_pos.mpr ⟨p, hp⟩).trans_le (hcard.trans hhk)
      by_cases hfew : loads w < k
      · -- the last phase is not complete
        calc (k + 1 - h) * (loads w + 1) ≤ (k + 1 - h) * k := Nat.mul_le_mul_left _ hfew
          _ ≤ k * n + (k + 1 - h) * k := Nat.le_add_left ..
      · obtain ⟨pre, q, post, rfl, hpre⟩ := exists_load (τ := w) (m := k - 1) (by omega)
        have hphase : loads (pre ++ [(q, true)]) = k := by
          simp [loads] at hpre ⊢
          omega
        rw [show pre ++ (q, true) :: post = (pre ++ [(q, true)]) ++ post by simp,
          List.map_append] at hs
        obtain ⟨v, m, m', hfirst, hsecond, rfl⟩ := hs.exists_of_append
        have hm : k + 1 - h ≤ m := by
          refine phase_le (p := p) (b := b) ?_ hphase.ge hp hcard hfirst
          exact H.of_window ⟨[], post, by simp⟩
        rw [List.map_append] at hfirst
        have hheld := hfirst.held
        have hrest := ih post.length (by simp [← hlen]; omega) (p := q) (b := true) (w := post)
          (H.of_window ⟨(p, b) :: pre, [], by simp⟩) hheld.1 hheld.2 hsecond rfl
        have hloads : loads (pre ++ (q, true) :: post) = k + loads post := by
          rw [← hphase]
          simp [loads]
          omega
        rw [hloads]
        have hcost : (k + 1 - h) * k ≤ k * m := by
          rw [Nat.mul_comm k m]
          exact Nat.mul_le_mul_right k hm
        calc (k + 1 - h) * (k + loads post + 1)
            = (k + 1 - h) * k + (k + 1 - h) * (loads post + 1) := by ring
          _ ≤ k * m + (k * m' + (k + 1 - h) * k) := Nat.add_le_add hcost hrest
          _ = k * (m + m') + (k + 1 - h) * k := by ring

/-- **Against the best schedule.** A cache with `k` places that serves requests, loading a key again
only after `k` others, loads at most `k / (k + 1 - h)` times as much as anyone with `h` places has to,
and `k` keys more for what it did not hold at the start. -/
theorem competitive {h n : ℕ} {s t : Finset κ} (H : Retains k τ) (hhk : h ≤ k)
    (hs : Schedule h s (τ.map Prod.fst) t n) :
    (k + 1 - h) * loads τ ≤ k * n + (k + 1 - h) * k := by
  cases τ with
  | nil => simp [loads]
  | cons x τ =>
      cases hs with
      | @cons _ v _ _ _ n hx hcard hrest =>
          have hloads : loads (x :: τ) ≤ loads τ + 1 := by
            rw [loads_cons]
            cases x.2 <;> simp
          calc (k + 1 - h) * loads (x :: τ) ≤ (k + 1 - h) * (loads τ + 1) :=
                Nat.mul_le_mul_left _ hloads
            _ ≤ k * n + (k + 1 - h) * k := H.loads_le_of_held hx hcard hhk hrest
            _ ≤ k * ((v \ s).card + n) + (k + 1 - h) * k := by
                gcongr
                exact Nat.le_add_left ..

end Retains
end Paging
