import Mathlib.Data.List.Perm.Basic

/-!
# Operations on separate parts of a state

A state has parts, and something that is shared. An operation that works on one part reads nothing
else; what is shared it changes by events, such as the bump of a counter, and does not read. If
events commute, so do operations that work on different parts (`LocalTo.commute`).

That an operation reads nothing but its part is a statement about two executions, from states that
may differ in everything else. `Coupled` says what the two have in common, and its rules follow the
executions step by step. An operation also gets a parameter of which nothing may depend, like the
identity of an object it creates.
-/

/-- How a state divides into parts and what is shared, and the events that act on the latter. -/
structure SharedParts (ι X S T E : Type) where
  part : ι → X → S
  shared : X → T
  act : E → T → T
  comm : ∀ e e' t, act e (act e' t) = act e' (act e t)

namespace SharedParts
variable {ι X S T E ρ ρ' α β : Type} (L : SharedParts ι X S T E) {i j : ι}

/-- The effect of events, the last one of the list first. -/
def run (es : List E) (t : T) : T := es.foldr L.act t

theorem run_append (es es' : List E) (t : T) : L.run (es ++ es') t = L.run es (L.run es' t) :=
  List.foldr_append

theorem run_comm (es es' : List E) (t : T) : L.run es (L.run es' t) = L.run es' (L.run es t) := by
  have : LeftCommutative L.act := ⟨L.comm⟩
  rw [← L.run_append, ← L.run_append]
  exact List.perm_append_comm.foldr_eq t

/-- From `x` to `x'` and from `y` to `y'` the same events happen, and the part comes out the same. -/
structure Coupled (i : ι) (x y x' y' : X) : Prop where
  part : L.part i x' = L.part i y'
  events : ∃ es, L.shared x' = L.run es (L.shared x) ∧ L.shared y' = L.run es (L.shared y)

namespace Coupled
variable {L} {x y x' y' x'' y'' : X}

theorem refl (h : L.part i x = L.part i y) : L.Coupled i x y x y := ⟨h, [], rfl, rfl⟩

/-- One event. -/
theorem event (h : L.part i x' = L.part i y') (e : E) (hx : L.shared x' = L.act e (L.shared x))
    (hy : L.shared y' = L.act e (L.shared y)) : L.Coupled i x y x' y' :=
  ⟨h, [e], hx, hy⟩

/-- No event. -/
theorem silent (h : L.part i x' = L.part i y') (hx : L.shared x' = L.shared x)
    (hy : L.shared y' = L.shared y) : L.Coupled i x y x' y' :=
  ⟨h, [], hx, hy⟩

theorem trans (h : L.Coupled i x y x' y') (h' : L.Coupled i x' y' x'' y'') :
    L.Coupled i x y x'' y'' := by
  obtain ⟨es, hx, hy⟩ := h.events
  obtain ⟨es', hx', hy'⟩ := h'.events
  refine ⟨h'.part, es' ++ es, ?_, ?_⟩
  · rw [hx', hx, L.run_append]
  · rw [hy', hy, L.run_append]

end Coupled

/-- The operation reads and writes part `i` alone, and makes nothing of its parameter. -/
structure LocalTo (i : ι) (F : ρ → X → α × X) : Prop where
  blind : ∀ r r' x y, L.part i x = L.part i y →
    (F r x).1 = (F r' y).1 ∧ L.Coupled i x y (F r x).2 (F r' y).2
  frame : ∀ r x j, j ≠ i → L.part j (F r x).2 = L.part j x

/-- The states agree in their parts and in what is shared. -/
structure Same (x y : X) : Prop where
  part : ∀ k, L.part k x = L.part k y
  shared : L.shared x = L.shared y

/-- **Operations on different parts commute.** In either order they give the same two results and
lead to the same state. -/
theorem LocalTo.commute {L : SharedParts ι X S T E} {F : ρ → X → α × X} {G : ρ' → X → β × X}
    (hF : L.LocalTo i F) (hG : L.LocalTo j G) (hij : i ≠ j) (x : X) (r₁ r₂ : ρ) (s₁ s₂ : ρ') :
    (F r₁ x).1 = (F r₂ (G s₂ x).2).1 ∧ (G s₁ (F r₁ x).2).1 = (G s₂ x).1 ∧
      L.Same (G s₁ (F r₁ x).2).2 (F r₂ (G s₂ x).2).2 := by
  let xF := (F r₁ x).2
  let xG := (G s₂ x).2
  have hFpart : L.part j xF = L.part j x := hF.frame r₁ x j hij.symm
  have hGpart : L.part i xG = L.part i x := hG.frame s₂ x i hij
  obtain ⟨hFres, hFc⟩ := hF.blind r₁ r₂ x xG hGpart.symm
  obtain ⟨hGres, hGc⟩ := hG.blind s₁ s₂ xF x hFpart
  refine ⟨hFres, hGres, ?_, ?_⟩
  · intro k
    by_cases hki : k = i
    · subst hki
      exact (hG.frame s₁ xF k hij).trans hFc.part
    · by_cases hkj : k = j
      · subst hkj
        exact hGc.part.trans (hF.frame r₂ xG k hki).symm
      · rw [hG.frame s₁ xF k hkj, hF.frame r₂ xG k hki]
        exact (hF.frame r₁ x k hki).trans (hG.frame s₂ x k hkj).symm
  · obtain ⟨es, hF₁, hF₂⟩ := hFc.events
    obtain ⟨es', hG₁, hG₂⟩ := hGc.events
    calc L.shared (G s₁ xF).2
        = L.run es' (L.shared xF) := hG₁
      _ = L.run es' (L.run es (L.shared x)) := by rw [hF₁]
      _ = L.run es (L.run es' (L.shared x)) := L.run_comm ..
      _ = L.run es (L.shared xG) := by rw [hG₂]
      _ = L.shared (F r₂ xG).2 := hF₂.symm

end SharedParts
