import Mathlib.Data.List.Forall2
import Mathlib.Data.Nat.Notation
import Mathlib.Logic.Relation

/-!
# Runs of labelled transition systems

A system is a relation `R s a t`, "in state `s` the action `a` leads to `t`". `Run R s as t` is a
finite run with its list of actions. The rules below are how every statement about all runs is proved:
an invariant is carried from one end of a run to the other, a second one can rely on the first, a
property that holds at the start and not at the end is lost at a definite step, and one that holds at
the end only is there to stay from a definite step on.

The second part counts steps: if every step changes a quantity of the state by what it counts, the
quantity at the end of an execution is known from the count. The third part collects what the steps
of an execution record: if an abstract machine can do what each step records, it can do what the
execution records; and it lists the states of an execution, for what is said of moments in between.
The last part is about deterministic machines that answer each input: two machines related by a
simulation give related answers.
-/

namespace Transition
variable {σ τ α ι ο : Type}

/-- A finite run from `s` to `t`, with its actions in order. -/
inductive Run (R : σ → α → σ → Prop) : σ → List α → σ → Prop
  | nil (s : σ) : Run R s [] s
  | cons {s t u : σ} {a : α} {as : List α} : R s a t → Run R t as u → Run R s (a :: as) u

namespace Run
variable {R S : σ → α → σ → Prop} {s t u : σ} {a : α} {as bs : List α}

theorem append (h : Run R s as t) (h' : Run R t bs u) : Run R s (as ++ bs) u := by
  induction h with
  | nil _ => exact h'
  | cons hstep _ ih => exact .cons hstep (ih h')

theorem snoc (h : Run R s as t) (h' : R t a u) : Run R s (as ++ [a]) u :=
  h.append (.cons h' (.nil u))

/-- A run over two lists of actions passes through a state between them. -/
theorem exists_of_append (h : Run R s (as ++ bs) u) : ∃ t, Run R s as t ∧ Run R t bs u := by
  induction as generalizing s with
  | nil => exact ⟨s, .nil s, h⟩
  | cons a as ih =>
      cases h with
      | cons hstep hrest =>
          obtain ⟨t, ht, hu⟩ := ih hrest
          exact ⟨t, .cons hstep ht, hu⟩

/-- Each action of a run is a step. -/
theorem exists_step (h : Run R s as t) (ha : a ∈ as) : ∃ u v, R u a v := by
  obtain ⟨bs, cs, rfl⟩ := List.append_of_mem ha
  obtain ⟨u, -, hrest⟩ := h.exists_of_append
  cases hrest with
  | cons hstep _ => exact ⟨_, _, hstep⟩

/-- Weaken what is known of each step. -/
theorem mono (hRS : ∀ s a t, R s a t → S s a t) (h : Run R s as t) : Run S s as t := by
  induction h with
  | nil s => exact .nil s
  | cons hstep _ ih => exact .cons (hRS _ _ _ hstep) ih

/-- What holds of all actions of a run is known at each step. -/
theorem restrict {P : α → Prop} (h : Run R s as t) (hP : ∀ a ∈ as, P a) :
    Run (fun s a t => R s a t ∧ P a) s as t := by
  induction h with
  | nil s => exact .nil s
  | cons hstep _ ih =>
      obtain ⟨ha, has⟩ := List.forall_mem_cons.mp hP
      exact .cons ⟨hstep, ha⟩ (ih has)

/-- **Invariant rule.** A property that each step preserves is preserved by a run. -/
theorem invariant {P : σ → Prop} (hstep : ∀ s a t, R s a t → P s → P t)
    (h : Run R s as t) (hs : P s) : P t := by
  induction h with
  | nil _ => exact hs
  | cons h₁ _ ih => exact ih (hstep _ _ _ h₁ hs)

/-- A property that each step preserves where an invariant holds. -/
theorem invariant_under {I P : σ → Prop} (hI : ∀ s a t, R s a t → I s → I t)
    (hstep : ∀ s a t, R s a t → I s → P s → P t) (h : Run R s as t) (hi : I s) (hs : P s) :
    P t := by
  have hboth : I t ∧ P t :=
    h.invariant (P := fun s => I s ∧ P s)
      (fun s a t hst hsp => ⟨hI s a t hst hsp.1, hstep s a t hst hsp.1 hsp.2⟩) ⟨hi, hs⟩
  exact hboth.2

/-- **Exit rule.** A property that holds at the start of a run and fails at its end holds up to a
definite step, which ends it. -/
theorem exists_exit {P : σ → Prop} (h : Run R s as u) (hs : P s) (hu : ¬ P u) :
    ∃ bs a cs t t', as = bs ++ a :: cs ∧ Run (fun s a t => R s a t ∧ P s ∧ P t) s bs t ∧ P t ∧
      R t a t' ∧ ¬ P t' ∧ Run R t' cs u := by
  induction h with
  | nil _ => exact absurd hs hu
  | @cons s t u a as hstep hrest ih =>
      by_cases ht : P t
      · obtain ⟨bs, b, cs, v, v', heq, hbs, hv, hb, hv', hcs⟩ := ih ht hu
        exact ⟨a :: bs, b, cs, v, v', by rw [heq]; rfl, .cons ⟨hstep, hs, ht⟩ hbs, hv, hb, hv', hcs⟩
      · exact ⟨[], a, as, s, t, rfl, .nil s, hs, hstep, ht, hrest⟩

/-- **Entry rule.** A property that holds at the end of a run and not at its start holds for good from a
definite step on, which begins it. -/
theorem exists_entry {P : σ → Prop} (h : Run R s as u) (hs : ¬ P s) (hu : P u) :
    ∃ bs a cs t t', as = bs ++ a :: cs ∧ Run R s bs t ∧ ¬ P t ∧ R t a t' ∧ P t' ∧
      Run (fun s a t => R s a t ∧ P s ∧ P t) t' cs u := by
  suffices H : (P s ∧ Run (fun s a t => R s a t ∧ P s ∧ P t) s as u) ∨
      ∃ bs a cs t t', as = bs ++ a :: cs ∧ Run R s bs t ∧ ¬ P t ∧ R t a t' ∧ P t' ∧
        Run (fun s a t => R s a t ∧ P s ∧ P t) t' cs u from H.resolve_left fun h => hs h.1
  clear hs
  induction h with
  | nil u => exact .inl ⟨hu, .nil u⟩
  | @cons s t u a as hstep _ ih =>
      rcases ih hu with ⟨ht, hlasts⟩ | ⟨bs, b, cs, v, v', heq, hbs, hv, hb, hv', hcs⟩
      · by_cases hs : P s
        · exact .inl ⟨hs, .cons ⟨hstep, hs, ht⟩ hlasts⟩
        · exact .inr ⟨[], a, as, s, t, rfl, .nil s, hs, hstep, ht, hlasts⟩
      · exact .inr ⟨a :: bs, b, cs, v, v', by rw [heq]; rfl, .cons hstep hbs, hv, hb, hv', hcs⟩

end Run

/-! ## Executable systems -/

/-- Run a partial step function over a list of actions. -/
def exec (step : α → σ → Option σ) : List α → σ → Option σ
  | [], s => some s
  | a :: as, s => (step a s).bind (exec step as)

/-- An execution is a run. -/
theorem run_of_exec {step : α → σ → Option σ} {as : List α} {s t : σ}
    (h : exec step as s = some t) : Run (fun s a t => step a s = some t) s as t := by
  induction as generalizing s with
  | nil =>
      cases h
      exact .nil _
  | cons a as ih =>
      obtain ⟨u, hu, hrest⟩ := Option.bind_eq_some_iff.mp h
      exact .cons hu (ih hrest)

/-- A run of a step function is an execution. -/
theorem exec_of_run {step : α → σ → Option σ} {as : List α} {s t : σ}
    (h : Run (fun s a t => step a s = some t) s as t) : exec step as s = some t := by
  induction h with
  | nil s => rfl
  | cons hstep _ ih => rw [exec, hstep, Option.bind_some, ih]

/-! ## Accounts of an execution -/

/-- The sum of what the steps of an execution count. -/
def total (step : α → σ → Option σ) (w : σ → α → σ → ℕ) : List α → σ → ℕ
  | [], _ => 0
  | a :: as, s =>
      match step a s with
      | some t => w s a t + total step w as t
      | none => 0

/-- How many steps of an execution have a property. -/
def occurrences (step : α → σ → Option σ) (p : σ → α → σ → Bool) (as : List α) (s : σ) : ℕ :=
  total step (fun s a t => (p s a t).toNat) as s

section Accounts
variable {step : α → σ → Option σ} {s t : σ} {as : List α}

theorem total_cons {a : α} {u : σ} (h : step a s = some u) (w : σ → α → σ → ℕ) :
    total step w (a :: as) s = w s a u + total step w as u := by
  simp only [total, h]

@[simp] theorem total_zero : total step (fun _ _ _ => 0) as s = 0 := by
  induction as generalizing s with
  | nil => rfl
  | cons a as ih =>
      simp only [total]
      split
      · rw [ih]
      · rfl

theorem total_add (v w : σ → α → σ → ℕ) :
    total step (fun s a t => v s a t + w s a t) as s = total step v as s + total step w as s := by
  induction as generalizing s with
  | nil => rfl
  | cons a as ih =>
      cases h : step a s with
      | none => simp only [total, h]
      | some u =>
          rw [total_cons h, total_cons h, total_cons h, ih]
          omega

/-- **Accounting rule.** If each step changes `f - g` by what it counts, so does a run. -/
theorem Run.balance {I : σ → Prop} {f g : σ → ℕ} {v w : σ → α → σ → ℕ}
    (hstep : ∀ s, ∀ a ∈ as, ∀ t, step a s = some t → I s →
      I t ∧ f t + g s + v s a t = f s + g t + w s a t)
    (h : Run (fun s a t => step a s = some t) s as t) (hs : I s) :
    f t + g s + total step v as s = f s + g t + total step w as s := by
  induction h with
  | nil s => simp only [total]
  | @cons s u t a as ha hrest ih =>
      obtain ⟨hu, heq⟩ := hstep s a List.mem_cons_self u ha hs
      have hrun := ih (fun s b hb t => hstep s b (List.mem_cons_of_mem a hb) t) hu
      rw [total_cons ha, total_cons ha]
      omega

end Accounts

/-! ## The trace of an execution -/

/-- What the steps of an execution record, in order. -/
def collect (step : α → σ → Option σ) (w : σ → α → σ → List ο) : List α → σ → List ο
  | [], _ => []
  | a :: as, s =>
      match step a s with
      | some t => w s a t ++ collect step w as t
      | none => []

section Traces
variable {step : α → σ → Option σ} {w : σ → α → σ → List ο} {s t u : σ} {as bs : List α}

theorem collect_cons {a : α} (h : step a s = some t) :
    collect step w (a :: as) s = w s a t ++ collect step w as t := by
  simp only [collect, h]

theorem exists_of_exec_append (h : exec step (as ++ bs) s = some u) :
    ∃ t, exec step as s = some t ∧ exec step bs t = some u := by
  induction as generalizing s with
  | nil => exact ⟨s, rfl, h⟩
  | cons a as ih =>
      obtain ⟨v, hv, hrest⟩ := Option.bind_eq_some_iff.mp h
      obtain ⟨t, ht, hu⟩ := ih hrest
      exact ⟨t, by simp only [exec, hv, Option.bind_some, ht], hu⟩

theorem collect_append (h : exec step as s = some t) (bs : List α) :
    collect step w (as ++ bs) s = collect step w as s ++ collect step w bs t := by
  induction as generalizing s with
  | nil =>
      cases h
      rfl
  | cons a as ih =>
      obtain ⟨v, hv, hrest⟩ := Option.bind_eq_some_iff.mp h
      simp only [List.cons_append, collect_cons hv, ih hrest, List.append_assoc]

theorem map_collect {π : Type} (f : ο → π) (as : List α) (s : σ) :
    (collect step w as s).map f = collect step (fun s a t => (w s a t).map f) as s := by
  induction as generalizing s with
  | nil => rfl
  | cons a as ih =>
      cases h : step a s with
      | none => simp only [collect, h, List.map_nil]
      | some v => rw [collect_cons h, collect_cons h, List.map_append, ih]

/-- **Refinement rule.** If each step of a system is, in what it records, a run of an abstract system,
then so is each execution. -/
theorem run_collect {A : τ → ο → τ → Prop} {R : σ → τ → Prop}
    (hstep : ∀ a ∈ as, ∀ s t x, R s x → step a s = some t → ∃ y, Run A x (w s a t) y ∧ R t y)
    {x : τ} (hR : R s x) (h : exec step as s = some t) :
    ∃ y, Run A x (collect step w as s) y ∧ R t y := by
  induction as generalizing s x with
  | nil =>
      cases h
      exact ⟨x, .nil x, hR⟩
  | cons a as ih =>
      obtain ⟨v, hv, hrest⟩ := Option.bind_eq_some_iff.mp h
      obtain ⟨y, hy, hRy⟩ := hstep a List.mem_cons_self s v x hR hv
      obtain ⟨z, hz, hRz⟩ := ih (fun b hb => hstep b (List.mem_cons_of_mem a hb)) hRy hrest
      exact ⟨z, collect_cons (w := w) hv ▸ hy.append hz, hRz⟩

/-- The states of an execution. -/
def visited (step : α → σ → Option σ) : List α → σ → List σ
  | [], s => [s]
  | a :: as, s =>
      s :: match step a s with
        | some t => visited step as t
        | none => []

theorem mem_visited (as : List α) (s : σ) : s ∈ visited step as s := by
  cases as <;> simp [visited]

/-- What each step preserves holds in all states of an execution. -/
theorem forall_mem_visited {P : σ → Prop}
    (hstep : ∀ a ∈ as, ∀ u v, P u → step a u = some v → P v) (hs : P s) :
    ∀ u ∈ visited step as s, P u := by
  induction as generalizing s with
  | nil => simpa [visited] using hs
  | cons a as ih =>
      rw [visited, List.forall_mem_cons]
      refine ⟨hs, ?_⟩
      cases ht : step a s with
      | none => simp
      | some t =>
          exact ih (fun b hb => hstep b (List.mem_cons_of_mem a hb))
            (hstep a List.mem_cons_self s t hs ht)

/-- **Invariant rule.** In a step of an execution both states are among those of the execution. -/
theorem invariant_of_visited {Q : σ → Prop}
    (hstep : ∀ a ∈ as, ∀ u v, u ∈ visited step as s → v ∈ visited step as s → Q u →
      step a u = some v → Q v) (hs : Q s) (h : exec step as s = some t) : Q t := by
  suffices H : ∀ bs x, (∀ u ∈ visited step bs x, u ∈ visited step as s) → bs ⊆ as → Q x →
      exec step bs x = some t → Q t from H as s (fun _ hu => hu) (fun _ ha => ha) hs h
  intro bs
  induction bs with
  | nil =>
      intro x _ _ hx h
      cases h
      exact hx
  | cons b bs ih =>
      intro x hvisited hbs hx h
      obtain ⟨y, hy, hrest⟩ := Option.bind_eq_some_iff.mp h
      simp only [visited, hy, List.forall_mem_cons] at hvisited
      obtain ⟨hb, hbs⟩ := List.cons_subset.mp hbs
      have hQ := hstep b hb x y hvisited.1 (hvisited.2 y (mem_visited bs y)) hx hy
      exact ih y hvisited.2 hbs hQ hrest

end Traces

/-! ## Machines with answers -/

/-- The answers a machine gives to a list of inputs. -/
def outputs (f : ι → σ → ο × σ) : List ι → σ → List ο
  | [], _ => []
  | i :: is, s => (f i s).1 :: outputs f is (f i s).2

/-- The state a machine reaches on a list of inputs. -/
def final (f : ι → σ → ο × σ) (is : List ι) (s : σ) : σ := is.foldl (fun s i => (f i s).2) s

theorem outputs_append (f : ι → σ → ο × σ) (is js : List ι) (s : σ) :
    outputs f (is ++ js) s = outputs f is s ++ outputs f js (final f is s) := by
  induction is generalizing s with
  | nil => rfl
  | cons i is ih => exact congrArg _ (ih _)

@[simp] theorem length_outputs (f : ι → σ → ο × σ) (is : List ι) (s : σ) :
    (outputs f is s).length = is.length := by
  induction is generalizing s with
  | nil => rfl
  | cons i is ih => exact congrArg Nat.succ (ih _)

/-- **Invariant rule.** What each answer satisfies where an invariant holds, all answers do. -/
theorem outputs_of_invariant {f : ι → σ → ο × σ} {I : σ → Prop} {Q : ι → ο → Prop} {is : List ι}
    (hstep : ∀ i ∈ is, ∀ s, I s → Q i (f i s).1 ∧ I (f i s).2) {s : σ} (hs : I s) :
    (∀ x ∈ is.zip (outputs f is s), Q x.1 x.2) ∧ I (final f is s) := by
  induction is generalizing s with
  | nil => exact ⟨by simp [outputs], hs⟩
  | cons i is ih =>
      obtain ⟨hout, hnext⟩ := hstep i List.mem_cons_self s hs
      obtain ⟨houts, hfinal⟩ := ih (fun j hj => hstep j (List.mem_cons_of_mem i hj)) hnext
      exact ⟨List.forall_mem_cons.mpr ⟨hout, houts⟩, hfinal⟩

/-- **Simulation rule.** Machines related by a simulation give related answers and stay related. What
is known of the inputs is known at each step, and what the answers have to do with each other may
depend on the input. -/
theorem zip_outputs_of_simulation {ο' : Type} {f : ι → σ → ο × σ} {g : ι → τ → ο' × τ}
    {S : σ → τ → Prop} {T : ι → ο → ο' → Prop} {is : List ι}
    (hstep : ∀ i ∈ is, ∀ s t, S s t → T i (f i s).1 (g i t).1 ∧ S (f i s).2 (g i t).2)
    {s : σ} {t : τ} (h : S s t) :
    List.Forall₂ (fun x y => T x.1 x.2 y) (is.zip (outputs f is s)) (outputs g is t) ∧
      S (final f is s) (final g is t) := by
  induction is generalizing s t with
  | nil => exact ⟨.nil, h⟩
  | cons i is ih =>
      obtain ⟨hout, hsim⟩ := hstep i List.mem_cons_self s t h
      obtain ⟨houts, hfin⟩ := ih (fun j hj => hstep j (List.mem_cons_of_mem i hj)) hsim
      exact ⟨.cons hout houts, hfin⟩

theorem outputs_forall₂_of_simulation {ο' : Type} {f : ι → σ → ο × σ} {g : ι → τ → ο' × τ}
    {S : σ → τ → Prop} {T : ο → ο' → Prop}
    (hstep : ∀ i s t, S s t → T (f i s).1 (g i t).1 ∧ S (f i s).2 (g i t).2)
    (is : List ι) {s : σ} {t : τ} (h : S s t) :
    List.Forall₂ T (outputs f is s) (outputs g is t) ∧ S (final f is s) (final g is t) := by
  have hall : ∀ i ∈ is, ∀ s t, S s t → T (f i s).1 (g i t).1 ∧ S (f i s).2 (g i t).2 :=
    fun i _ => hstep i
  obtain ⟨houts, hfin⟩ := zip_outputs_of_simulation (T := fun _ => T) hall h
  have hmap := List.forall₂_map_left_iff.mpr houts
  rw [List.map_snd_zip (by simp)] at hmap
  exact ⟨hmap, hfin⟩

/-- Machines that give the same answer to each input, whenever they are related, do so on a run. -/
theorem outputs_eq_of_simulation {f : ι → σ → ο × σ} {g : ι → τ → ο × τ} {S : σ → τ → Prop}
    (hstep : ∀ i s t, S s t → (f i s).1 = (g i t).1 ∧ S (f i s).2 (g i t).2)
    (is : List ι) {s : σ} {t : τ} (h : S s t) :
    outputs f is s = outputs g is t ∧ S (final f is s) (final g is t) := by
  obtain ⟨houts, hfin⟩ := outputs_forall₂_of_simulation hstep is h
  exact ⟨List.forall₂_eq_eq_eq ▸ houts, hfin⟩

end Transition
