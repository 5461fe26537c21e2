import Mathlib.Data.Nat.Notation
import Mathlib.Logic.Function.Basic

/-!
# Single flight, as a protocol

Many threads want a value for a key that takes work to produce. A board holds at most one record
for a key. A thread that finds no record registers a new one and owns it: it works, then completes
the record's promise with an outcome, then takes the record off the board. A thread that finds a
record joins it and waits for the promise.

The protocol is stated for any types of threads, keys and outcomes. What it guarantees is the
invariant `Board.Sound`: the record on the board for a key is owned by exactly one thread, a promise
is open while its owner works and holds the owner's outcome afterwards, and a thread that waits
waits for a record that is completed or being worked on.
-/
namespace SingleFlight
variable {Tid Key Out : Type}

/-- What a thread has to do with the board. -/
inductive Role (Key Out : Type)
  | outside
  /-- Owns the record and has not completed it. -/
  | working (key : Key) (record : ℕ)
  /-- Has completed its record, which is still on the board. -/
  | completed (key : Key) (record : ℕ) (out : Out)
  | waiting (record : ℕ)
  deriving DecidableEq, Repr

/-- The key and record a thread owns. -/
def Role.owns : Role Key Out → Option (Key × ℕ)
  | .working k r => some (k, r)
  | .completed k r _ => some (k, r)
  | _ => none

/-- The records in flight, their promises, and what each thread is doing. -/
structure Board (Tid Key Out : Type) where
  flight : Key → Option ℕ
  promise : ℕ → Option Out
  /-- Records from this one on have not been created. -/
  next : ℕ
  role : Tid → Role Key Out

namespace Board

def empty : Board Tid Key Out := ⟨fun _ => none, fun _ => none, 0, fun _ => .outside⟩

variable [DecidableEq Tid] [DecidableEq Key]

def setRole (t : Tid) (role : Role Key Out) (b : Board Tid Key Out) : Board Tid Key Out :=
  { b with role := Function.update b.role t role }

def register (t : Tid) (k : Key) (b : Board Tid Key Out) : Board Tid Key Out :=
  { b.setRole t (.working k b.next) with
      flight := Function.update b.flight k (some b.next), next := b.next + 1 }

def complete (t : Tid) (k : Key) (r : ℕ) (out : Out) (b : Board Tid Key Out) :
    Board Tid Key Out :=
  { b.setRole t (.completed k r out) with promise := Function.update b.promise r (some out) }

def unregister (t : Tid) (k : Key) (b : Board Tid Key Out) : Board Tid Key Out :=
  { b.setRole t .outside with flight := Function.update b.flight k none }

/-- One step of thread `t`. -/
inductive Step (t : Tid) : Board Tid Key Out → Board Tid Key Out → Prop
  /-- Nothing that concerns the board. -/
  | idle (b) : Step t b b
  | register (b) (k : Key) : b.role t = .outside → b.flight k = none → Step t b (b.register t k)
  | join (b) (k : Key) (r : ℕ) : b.role t = .outside → b.flight k = some r →
      Step t b (b.setRole t (.waiting r))
  | complete (b) (k : Key) (r : ℕ) (out : Out) : b.role t = .working k r →
      Step t b (b.complete t k r out)
  | unregister (b) (k : Key) (r : ℕ) (out : Out) : b.role t = .completed k r out →
      Step t b (b.unregister t k)
  | wake (b) (r : ℕ) (out : Out) : b.role t = .waiting r → b.promise r = some out →
      Step t b (b.setRole t .outside)

omit [DecidableEq Tid] [DecidableEq Key] in
theorem owns_of_working {b : Board Tid Key Out} {t : Tid} {k : Key} {r : ℕ}
    (h : b.role t = .working k r) : (b.role t).owns = some (k, r) := by rw [h]; rfl

omit [DecidableEq Tid] [DecidableEq Key] in
theorem owns_of_completed {b : Board Tid Key Out} {t : Tid} {k : Key} {r : ℕ} {out : Out}
    (h : b.role t = .completed k r out) : (b.role t).owns = some (k, r) := by rw [h]; rfl

/-- The invariant of the protocol. -/
structure Sound (b : Board Tid Key Out) : Prop where
  /-- An owned record is the one on the board for its key. -/
  owned_on_board : ∀ t k r, (b.role t).owns = some (k, r) → b.flight k = some r
  /-- A record on the board has an owner. -/
  board_owned : ∀ k r, b.flight k = some r → ∃ t, (b.role t).owns = some (k, r)
  /-- A record is owned once, and for one key. -/
  owner_unique : ∀ t t' k k' r, (b.role t).owns = some (k, r) → (b.role t').owns = some (k', r) →
    t = t' ∧ k = k'
  working_open : ∀ t k r, b.role t = .working k r → b.promise r = none
  completed_holds : ∀ t k r out, b.role t = .completed k r out → b.promise r = some out
  /-- A thread does not wait in vain. -/
  waiting_served : ∀ t r, b.role t = .waiting r →
    (∃ out, b.promise r = some out) ∨ ∃ t' k, b.role t' = .working k r
  owned_created : ∀ t k r, (b.role t).owns = some (k, r) → r < b.next
  kept_created : ∀ r out, b.promise r = some out → r < b.next

omit [DecidableEq Tid] [DecidableEq Key] in
theorem sound_empty : (empty : Board Tid Key Out).Sound := by
  constructor <;> intros <;> simp_all [empty, Role.owns]

omit [DecidableEq Tid] [DecidableEq Key] in
/-- Two owners of one key are one thread with one record. -/
theorem Sound.owner_eq {b : Board Tid Key Out} (h : b.Sound) {t t' : Tid} {k : Key} {r r' : ℕ}
    (ht : (b.role t).owns = some (k, r)) (ht' : (b.role t').owns = some (k, r')) :
    t = t' ∧ r = r' := by
  have hr : r = r' := by
    have h₁ := h.owned_on_board t k r ht
    have h₂ := h.owned_on_board t' k r' ht'
    rw [h₁, Option.some.injEq] at h₂
    exact h₂
  subst hr
  exact ⟨(h.owner_unique t t' k k r ht ht').1, rfl⟩

/-! ## Each step keeps the invariant -/

omit [DecidableEq Key] in
@[simp] theorem role_setRole (t u : Tid) (role : Role Key Out) (b : Board Tid Key Out) :
    (b.setRole t role).role u = if u = t then role else b.role u := Function.update_apply ..
omit [DecidableEq Key] in
@[simp] theorem flight_setRole (t : Tid) (role : Role Key Out) (b : Board Tid Key Out) :
    (b.setRole t role).flight = b.flight := rfl
omit [DecidableEq Key] in
@[simp] theorem promise_setRole (t : Tid) (role : Role Key Out) (b : Board Tid Key Out) :
    (b.setRole t role).promise = b.promise := rfl
omit [DecidableEq Key] in
@[simp] theorem next_setRole (t : Tid) (role : Role Key Out) (b : Board Tid Key Out) :
    (b.setRole t role).next = b.next := rfl

omit [DecidableEq Tid] [DecidableEq Key] in
/-- The next record is not completed. -/
theorem Sound.promise_next {b : Board Tid Key Out} (h : b.Sound) : b.promise b.next = none := by
  cases hp : b.promise b.next with
  | none => rfl
  | some out => exact absurd (h.kept_created _ out hp) (Nat.lt_irrefl _)

theorem Sound.register {b : Board Tid Key Out} (h : b.Sound) {t : Tid} {k : Key}
    (hrole : b.role t = .outside) (hfree : b.flight k = none) : (b.register t k).Sound := by
  have hopen := h.promise_next
  obtain ⟨hboard, howner, huniq, hwork, hdone, hwait, hcreated, hkept⟩ := h
  constructor <;>
    simp only [Board.register, role_setRole, promise_setRole, Function.update_apply] <;>
    grind [Role.owns]

omit [DecidableEq Key] in
/-- A thread outside may wait for a record on the board. -/
theorem Sound.join {b : Board Tid Key Out} (h : b.Sound) {t : Tid} {k : Key} {r : ℕ}
    (hrole : b.role t = .outside) (hk : b.flight k = some r) :
    (b.setRole t (.waiting r)).Sound := by
  -- the record's owner is at work on it or has completed it
  have hserved : (∃ out, b.promise r = some out) ∨ ∃ t' k, b.role t' = .working k r := by
    obtain ⟨t', ht'⟩ := h.board_owned k r hk
    cases hr : b.role t' with
    | outside => simp [hr, Role.owns] at ht'
    | waiting _ => simp [hr, Role.owns] at ht'
    | working j _ =>
        simp only [hr, Role.owns, Option.some.injEq, Prod.mk.injEq] at ht'
        exact .inr ⟨t', j, by rw [hr, ht'.2]⟩
    | completed j _ out =>
        simp only [hr, Role.owns, Option.some.injEq, Prod.mk.injEq] at ht'
        exact .inl ⟨out, by rw [← ht'.2]; exact h.completed_holds t' j _ out hr⟩
  obtain ⟨hboard, howner, huniq, hwork, hdone, hwait, hcreated, hkept⟩ := h
  constructor <;> simp only [role_setRole, promise_setRole, flight_setRole, next_setRole] <;>
    grind [Role.owns]

omit [DecidableEq Key] in
theorem Sound.complete {b : Board Tid Key Out} (h : b.Sound) {t : Tid} {k : Key} {r : ℕ}
    (out : Out) (hrole : b.role t = .working k r) : (b.complete t k r out).Sound := by
  have howns := owns_of_working hrole
  have hlt := h.owned_created t k r howns
  obtain ⟨hboard, howner, huniq, hwork, hdone, hwait, hcreated, hkept⟩ := h
  constructor <;>
    simp only [Board.complete, role_setRole, flight_setRole, next_setRole, Function.update_apply] <;>
    grind [Role.owns]

/-- Erasing by key erases the owner's own record. -/
theorem Sound.unregister {b : Board Tid Key Out} (h : b.Sound) {t : Tid} {k : Key} {r : ℕ}
    {out : Out} (hrole : b.role t = .completed k r out) : (b.unregister t k).Sound := by
  have howns := owns_of_completed hrole
  have hpromise := h.completed_holds t k r out hrole
  have hsole : ∀ t' r', (b.role t').owns = some (k, r') → t = t' :=
    fun t' r' ht' => (h.owner_eq howns ht').1
  obtain ⟨hboard, howner, huniq, hwork, hdone, hwait, hcreated, hkept⟩ := h
  constructor <;>
    simp only [Board.unregister, role_setRole, promise_setRole, next_setRole,
      Function.update_apply] <;>
    grind [Role.owns]

omit [DecidableEq Key] in
/-- A waiting thread may leave. -/
theorem Sound.wake {b : Board Tid Key Out} (h : b.Sound) {t : Tid} {r : ℕ}
    (hrole : b.role t = .waiting r) : (b.setRole t .outside).Sound := by
  obtain ⟨hboard, howner, huniq, hwork, hdone, hwait, hcreated, hkept⟩ := h
  constructor <;> simp only [role_setRole, promise_setRole, flight_setRole, next_setRole] <;>
    grind [Role.owns]

/-- **The protocol is sound**: every step of every thread keeps the invariant. -/
theorem Step.sound {t : Tid} {b b' : Board Tid Key Out} (hstep : Step t b b') (h : b.Sound) :
    b'.Sound := by
  cases hstep with
  | idle => exact h
  | register k hrole hfree => exact h.register hrole hfree
  | join k r hrole hk => exact h.join hrole hk
  | complete k r out hrole => exact h.complete out hrole
  | unregister k r out hrole => exact h.unregister hrole
  | wake r out hrole hp => exact h.wake hrole

/-- **A completed promise keeps its outcome**: nobody completes it a second time. -/
theorem Step.promise_stable {t : Tid} {b b' : Board Tid Key Out} (hstep : Step t b b')
    (h : b.Sound) {r : ℕ} {out : Out} (hp : b.promise r = some out) : b'.promise r = some out := by
  cases hstep with
  | complete k r' out' hrole =>
      have hne : r ≠ r' := by
        rintro rfl
        rw [h.working_open t k r hrole] at hp
        cases hp
      exact (Function.update_of_ne hne ..).trans hp
  | _ => exact hp

theorem Step.next_mono {t : Tid} {b b' : Board Tid Key Out} (hstep : Step t b b') :
    b.next ≤ b'.next := by
  cases hstep with
  | register => exact Nat.le_succ _
  | _ => exact Nat.le_refl _

/-- **A record never changes hands**: who owns an old record owned it before. -/
theorem Step.owns_old {t u : Tid} {b b' : Board Tid Key Out} (hstep : Step t b b') {k : Key}
    {r : ℕ} (hr : r < b.next) (hu : (b'.role u).owns = some (k, r)) :
    (b.role u).owns = some (k, r) := by
  cases hstep with
  | idle => exact hu
  | register j hrole hfree =>
      simp only [Board.register, role_setRole] at hu
      split at hu
      · simp only [Role.owns, Option.some.injEq, Prod.mk.injEq] at hu
        omega
      · exact hu
  | join j r' hrole hj =>
      rw [role_setRole] at hu
      split at hu
      · cases hu
      · exact hu
  | complete j r' out hrole =>
      simp only [Board.complete, role_setRole] at hu
      split at hu
      · next heq =>
        rw [heq, owns_of_working hrole]
        exact hu
      · exact hu
  | unregister j r' out hrole =>
      simp only [Board.unregister, role_setRole] at hu
      split at hu
      · cases hu
      · exact hu
  | wake r' out hrole hp =>
      rw [role_setRole] at hu
      split at hu
      · cases hu
      · exact hu

end Board
end SingleFlight
