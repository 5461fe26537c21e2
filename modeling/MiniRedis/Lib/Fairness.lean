import Mathlib.Algebra.Order.Interval.Finset.SuccPred
import Mathlib.Data.Nat.SuccPred
import Mathlib.Order.Interval.Finset.Nat
import MiniRedis.Lib.Transition

/-!
# Fair runs

A `Path` is an infinite run. Fairness is an assumption about the scheduler: actions that stay ready
are taken at some time. `LeadsTo` says what must then happen; it follows from what single steps do by
two rules, one for an action that fairness provides and one for a rank that keeps decreasing.
-/

namespace Transition
variable {σ α : Type}

/-- An infinite run. -/
structure Path (R : σ → α → σ → Prop) where
  state : ℕ → σ
  action : ℕ → α
  step : ∀ n, R (state n) (action n) (state (n + 1))

namespace Path
variable {R : σ → α → σ → Prop} {ρ : Path R} {I P Q S : σ → Prop}

/-- What has happened by time `n` is a run. -/
theorem run (ρ : Path R) (n : ℕ) :
    Run R (ρ.state 0) ((List.range n).map ρ.action) (ρ.state n) := by
  induction n with
  | zero => exact .nil _
  | succ n ih =>
      rw [List.range_succ, List.map_append]
      exact ih.snoc (ρ.step n)

/-- What comes after the first `k` steps. -/
def drop (k : ℕ) (ρ : Path R) : Path R where
  state n := ρ.state (k + n)
  action n := ρ.action (k + n)
  step n := ρ.step (k + n)

/-- A step before a path. -/
def cons {s : σ} {a : α} (ρ : Path R) (h : R s a (ρ.state 0)) : Path R where
  state
    | 0 => s
    | n + 1 => ρ.state n
  action
    | 0 => a
    | n + 1 => ρ.action n
  step
    | 0 => h
    | n + 1 => ρ.step n

/-- An action that changes nothing, again and again. -/
def const {s : σ} {a : α} (h : R s a s) : Path R := ⟨fun _ => s, fun _ => a, fun _ => h⟩

/-- A finite run before a path. -/
theorem exists_of_run {s t : σ} {as : List α} (h : Run R s as t) (ρ : Path R) (hρ : ρ.state 0 = t) :
    ∃ ρ' : Path R, ρ'.state 0 = s ∧
      ∀ n, ρ'.state (n + as.length) = ρ.state n ∧ ρ'.action (n + as.length) = ρ.action n := by
  induction h with
  | nil t => exact ⟨ρ, hρ, fun _ => ⟨rfl, rfl⟩⟩
  | cons hstep _ ih =>
      obtain ⟨ρ', hstart, hlater⟩ := ih hρ
      exact ⟨ρ'.cons (hstart ▸ hstep), rfl, hlater⟩

/-- Actions with `p` that are ready from some time on are taken. -/
def Fair (ρ : Path R) (ready : σ → Prop) (p : α → Prop) : Prop :=
  ∀ n, (∀ m ≥ n, ready (ρ.state m)) → ∃ m ≥ n, p (ρ.action m)

theorem Fair.drop {ready : σ → Prop} {p : α → Prop} (h : ρ.Fair ready p) (k : ℕ) :
    (ρ.drop k).Fair ready p := by
  intro n hready
  have hlate : ∀ m ≥ k + n, ready (ρ.state m) := by
    intro m hm
    obtain ⟨d, rfl⟩ := Nat.exists_eq_add_of_le hm
    rw [Nat.add_assoc]
    exact hready (n + d) (Nat.le_add_right n d)
  obtain ⟨m, hm, hp⟩ := h (k + n) hlate
  obtain ⟨d, rfl⟩ := Nat.exists_eq_add_of_le hm
  refine ⟨n + d, Nat.le_add_right n d, ?_⟩
  rwa [Nat.add_assoc] at hp

/-- An action that is ready as long as it is not taken is taken, and `P` holds until then. -/
theorem Fair.exists_first {ready : σ → Prop} {p : α → Prop} (hfair : ρ.Fair ready p)
    (hI : ∀ n, I (ρ.state n)) (hready : ∀ s, I s → P s → ready s)
    (hkeep : ∀ s a t, R s a t → I s → P s → ¬ p a → P t) {n : ℕ} (hn : P (ρ.state n)) :
    ∃ m ≥ n, p (ρ.action m) ∧ P (ρ.state m) ∧ ∀ i ≥ n, i < m → ¬ p (ρ.action i) := by
  classical
  have hlasts : ∀ m ≥ n, (∀ i ≥ n, i < m → ¬ p (ρ.action i)) → P (ρ.state m) := by
    intro m hm
    induction m, hm using Nat.le_induction with
    | base => exact fun _ => hn
    | succ m hm ih =>
        intro hnone
        have hP := ih fun i hi hlt => hnone i hi (Nat.lt_succ_of_lt hlt)
        exact hkeep _ _ _ (ρ.step m) (hI m) hP (hnone m hm (Nat.lt_succ_self m))
  have hex : ∃ m, n ≤ m ∧ p (ρ.action m) := by
    by_contra hnever
    have hnone : ∀ i ≥ n, ¬ p (ρ.action i) := fun i hi hp => hnever ⟨i, hi, hp⟩
    obtain ⟨m, hm, hp⟩ :=
      hfair n fun m hm => hready _ (hI m) (hlasts m hm fun i hi _ => hnone i hi)
    exact hnone m hm hp
  obtain ⟨hm, hp⟩ := Nat.find_spec hex
  have hfirst : ∀ i ≥ n, i < Nat.find hex → ¬ p (ρ.action i) :=
    fun i hi hlt hpi => Nat.find_min hex hlt ⟨hi, hpi⟩
  exact ⟨Nat.find hex, hm, hp, hlasts _ hm hfirst, hfirst⟩

/-- After every state with `P` comes one with `Q`. -/
def LeadsTo (ρ : Path R) (P Q : σ → Prop) : Prop :=
  ∀ n, P (ρ.state n) → ∃ m ≥ n, Q (ρ.state m)

theorem LeadsTo.trans (h : ρ.LeadsTo P S) (h' : ρ.LeadsTo S Q) : ρ.LeadsTo P Q := by
  intro n hn
  obtain ⟨m, hm, hS⟩ := h n hn
  obtain ⟨l, hl, hQ⟩ := h' m hS
  exact ⟨l, hm.trans hl, hQ⟩

/-- What may come before `Q` leads to `Q` as well. -/
theorem LeadsTo.trans_or (h : ρ.LeadsTo P fun s => Q s ∨ S s) (h' : ρ.LeadsTo S Q) :
    ρ.LeadsTo P Q := by
  intro n hn
  obtain ⟨m, hm, hQ | hS⟩ := h n hn
  · exact ⟨m, hm, hQ⟩
  · obtain ⟨l, hl, hQ⟩ := h' m hS
    exact ⟨l, hm.trans hl, hQ⟩

/-- `P` lasts until `Q` holds, so it still holds when `S` comes, unless `Q` has come before. -/
theorem LeadsTo.until (hI : ∀ n, I (ρ.state n))
    (hkeep : ∀ s a t, R s a t → I s → P s → P t ∨ Q t) (h : ρ.LeadsTo P S) :
    ρ.LeadsTo P fun s => Q s ∨ P s ∧ S s := by
  intro n hn
  obtain ⟨m, hm, hS⟩ := h n hn
  have hlasts : ∀ l ≥ n, P (ρ.state l) ∨ ∃ i ≥ n, Q (ρ.state i) := by
    intro l hl
    induction l, hl using Nat.le_induction with
    | base => exact .inl hn
    | succ l hl ih =>
        rcases ih with hP | hQ
        · rcases hkeep _ _ _ (ρ.step l) (hI l) hP with hP | hQ
          · exact .inl hP
          · exact .inr ⟨l + 1, Nat.le_succ_of_le hl, hQ⟩
        · exact .inr hQ
  rcases hlasts m hm with hP | ⟨i, hi, hQ⟩
  · exact ⟨m, hm, .inr ⟨hP, hS⟩⟩
  · exact ⟨i, hi, .inl hQ⟩

/-- **Fairness rule.** `P` lasts until `Q` holds, in a state with `P` an action with `p` is ready, and
such an action makes `Q` true. -/
theorem LeadsTo.of_fair {ready : σ → Prop} {p : α → Prop} (hI : ∀ n, I (ρ.state n))
    (hfair : ρ.Fair ready p) (hready : ∀ s, I s → P s → ready s)
    (hkeep : ∀ s a t, R s a t → I s → P s → ¬ p a → P t ∨ Q t)
    (hact : ∀ s a t, R s a t → I s → P s → p a → Q t) : ρ.LeadsTo P Q := by
  intro n hn
  by_contra hnever
  have hlater : ∀ m ≥ n, ¬ Q (ρ.state m) := fun m hm hQ => hnever ⟨m, hm, hQ⟩
  have hstays : ∀ m ≥ n, P (ρ.state m) := by
    intro m hm
    induction m, hm using Nat.le_induction with
    | base => exact hn
    | succ m hm ih =>
        have hQ := hlater (m + 1) (Nat.le_succ_of_le hm)
        by_cases hp : p (ρ.action m)
        · exact absurd (hact _ _ _ (ρ.step m) (hI m) ih hp) hQ
        · exact (hkeep _ _ _ (ρ.step m) (hI m) ih hp).resolve_right hQ
  obtain ⟨m, hm, hp⟩ := hfair n fun m hm => hready _ (hI m) (hstays m hm)
  exact hlater (m + 1) (Nat.le_succ_of_le hm) (hact _ _ _ (ρ.step m) (hI m) (hstays m hm) hp)

/-- **Rank rule.** Each state with `P` leads to one with `Q`, or to one with `P` and a smaller rank. -/
theorem LeadsTo.of_rank (rank : σ → ℕ)
    (h : ∀ v, ρ.LeadsTo (fun s => P s ∧ rank s = v) fun s => Q s ∨ P s ∧ rank s < v) :
    ρ.LeadsTo P Q := by
  have hbelow : ∀ v n, P (ρ.state n) → rank (ρ.state n) ≤ v → ∃ m ≥ n, Q (ρ.state m) := by
    intro v
    induction v with
    | zero =>
        intro n hn hrank
        obtain ⟨m, hm, hQ | ⟨-, hlt⟩⟩ := h _ n ⟨hn, rfl⟩
        · exact ⟨m, hm, hQ⟩
        · omega
    | succ v ih =>
        intro n hn hrank
        obtain ⟨m, hm, hQ | ⟨hP, hlt⟩⟩ := h _ n ⟨hn, rfl⟩
        · exact ⟨m, hm, hQ⟩
        · obtain ⟨l, hl, hQ⟩ := ih m hP (by omega)
          exact ⟨l, hm.trans hl, hQ⟩
  exact fun n hn => hbelow _ n hn le_rfl

/-- **Step count.** Of the actions that make a rank smaller there are no more than the rank allows. -/
theorem card_add_rank_le (hI : ∀ n, I (ρ.state n)) {p : α → Prop} [DecidablePred p] (rank : σ → ℕ)
    (hdown : ∀ s a t, R s a t → I s → P s → p a → rank t < rank s)
    (hkeep : ∀ s a t, R s a t → I s → P s → ¬ p a → rank t ≤ rank s) {n m : ℕ} (hnm : n ≤ m)
    (hP : ∀ i, n ≤ i → i < m → P (ρ.state i)) :
    ((Finset.Ico n m).filter fun i => p (ρ.action i)).card + rank (ρ.state m) ≤
      rank (ρ.state n) := by
  induction m, hnm using Nat.le_induction with
  | base => simp
  | succ m hm ih =>
      have hrest := ih fun i hni hi => hP i hni (Nat.lt_succ_of_lt hi)
      have hPm := hP m hm (Nat.lt_succ_self m)
      rw [← Finset.insert_Ico_right_eq_Ico_add_one hm, Finset.filter_insert]
      by_cases hp : p (ρ.action m)
      · have := hdown _ _ _ (ρ.step m) (hI m) hPm hp
        rw [if_pos hp, Finset.card_insert_of_notMem (by simp)]
        omega
      · have := hkeep _ _ _ (ρ.step m) (hI m) hPm hp
        rw [if_neg hp]
        omega

end Path
end Transition
