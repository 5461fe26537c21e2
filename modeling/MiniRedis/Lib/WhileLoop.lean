import Mathlib.Data.Nat.Notation

/-!
# While loops

A loop `while (guard) body` over a state, whose body is a partial function: there is no next state
where the body would do something undefined. `WhileLoop guard body s ss t` is a run of the loop that
ends. It starts in `s`, ends in `t`, and `ss` lists the states in which the body ran.

Such a run is what the loop of a program means. `fuelled` computes it, given enough fuel, and
`WhileLoop.total` is the rule that shows there is one: an invariant under which the body is defined,
and a measure that each turn brings down. The measure also bounds the number of turns.
-/
variable {σ : Type}

inductive WhileLoop (guard : σ → Prop) (body : σ → Option σ) : σ → List σ → σ → Prop
  | exit {s : σ} : ¬ guard s → WhileLoop guard body s [] s
  | turn {s t u : σ} {ss : List σ} : guard s → body s = some t → WhileLoop guard body t ss u →
      WhileLoop guard body s (s :: ss) u

namespace WhileLoop

/-- The loop as a function. It stops where the body is undefined and when the fuel is used up. -/
def fuelled (guard : σ → Prop) [DecidablePred guard] (body : σ → Option σ) : ℕ → σ → σ
  | 0, s => s
  | fuel + 1, s =>
      if guard s then
        match body s with
        | some t => fuelled guard body fuel t
        | none => s
      else s

variable {guard : σ → Prop} {body : σ → Option σ} {s t : σ} {ss : List σ}

/-- **Total correctness.** If an invariant makes the body defined, is preserved by it, and each turn
lowers a measure, then the loop ends, after no more turns than the measure said, and the invariant
held in every state in which the body ran. -/
theorem total (I : σ → Prop) (m : σ → ℕ)
    (hbody : ∀ s, I s → guard s → ∃ t, body s = some t ∧ I t ∧ m t < m s) (hs : I s) :
    ∃ ss t, WhileLoop guard body s ss t ∧ ss.length ≤ m s ∧ (∀ r ∈ ss, I r ∧ guard r) ∧ I t ∧
      ¬ guard t := by
  generalize hn : m s = n
  induction n using Nat.strongRecOn generalizing s with
  | ind n ih =>
      by_cases hguard : guard s
      · obtain ⟨t, ht, hI, hlt⟩ := hbody s hs hguard
        obtain ⟨ss, u, hrest, hlen, hmem, hu, hexit⟩ := ih (m t) (hn ▸ hlt) hI rfl
        refine ⟨s :: ss, u, .turn hguard ht hrest, ?_, ?_, hu, hexit⟩
        · rw [List.length_cons]
          omega
        · exact List.forall_mem_cons.mpr ⟨⟨hs, hguard⟩, hmem⟩
      · exact ⟨[], s, .exit hguard, Nat.zero_le _, by simp, hs, hguard⟩

/-- Enough fuel computes the run. -/
theorem fuelled_eq [DecidablePred guard] (h : WhileLoop guard body s ss t) {fuel : ℕ}
    (hfuel : ss.length ≤ fuel) : fuelled guard body fuel s = t := by
  induction h generalizing fuel with
  | exit hguard =>
      cases fuel with
      | zero => rfl
      | succ fuel => simp only [fuelled, hguard, if_false]
  | turn hguard hbody _ ih =>
      cases fuel with
      | zero => simp at hfuel
      | succ fuel =>
          simp only [fuelled, hguard, if_true, hbody]
          exact ih (Nat.le_of_succ_le_succ hfuel)

end WhileLoop
