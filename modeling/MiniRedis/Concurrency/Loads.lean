import MiniRedis.Concurrency.InFlight

/-!
# What loaders deliver

A load has ended when its loader has returned or thrown. `deliveries` lists the loads of a run that
have ended, in their order, with the thread that has made each and its outcome. No load is made
twice, and a caller that waits for a record gets what another thread's load of that record has
delivered.
-/
namespace MiniRedis
variable {Key Value Exn : Type}

/-- A load that has ended, and what has come of it. -/
structure Delivery (Key Value Exn : Type) where
  load : Load Key
  out : Except Exn Value
  deriving DecidableEq

/-- What a loader delivers when its thread goes from one place to another. -/
def Pc.delivery : Pc Key Value Exn → Pc Key Value Exn → List (Delivery Key Value Exn)
  | .loading k _ r, .loaded _ _ _ v => [⟨(k, r), .ok v⟩]
  | .loading k _ r, .threw _ _ exn => [⟨(k, r), .error exn⟩]
  | _, _ => []

/-- The load that the owner of a record has made. -/
def Pc.delivered : Pc Key Value Exn → Option (Delivery Key Value Exn)
  | .loaded k _ r v => some ⟨(k, r), .ok v⟩
  | .stored k r v _ => some ⟨(k, r), .ok v⟩
  | .threw k r exn => some ⟨(k, r), .error exn⟩
  | .completed k r out => some ⟨(k, r), out⟩
  | _ => none

/-- The record whose load its owner has still to make. -/
def Pc.unmade : Pc Key Value Exn → Option RecordId
  | .registered _ _ r => some r
  | .loading _ _ r => some r
  | _ => none

theorem delivered_of_pending {pc : Pc Key Value Exn} {k : Key} {r : RecordId}
    {out : Except Exn Value} (h : pc.pending = some (k, r, out)) :
    pc.delivered = some ⟨(k, r), out⟩ := by
  cases pc <;> cases h <;> rfl

theorem owns_of_unmade {pc : Pc Key Value Exn} {r : RecordId} (h : pc.unmade = some r) :
    ∃ k, pc.role.owns = some (k, r) := by
  cases pc <;> cases h <;> exact ⟨_, rfl⟩

/-- What was recorded for thread `t`. -/
def ofThread {α : Type} (t : ℕ) (l : List (ℕ × α)) : List α :=
  (l.filter fun x => x.1 = t).map Prod.snd

section OfThread
variable {α : Type} (t : ℕ)

theorem ofThread_append (l l' : List (ℕ × α)) :
    ofThread t (l ++ l') = ofThread t l ++ ofThread t l' := by
  simp [ofThread]

/-- What one thread has recorded. -/
theorem ofThread_tagged (u : ℕ) (xs : List α) :
    ofThread t (xs.map fun x => (u, x)) = if u = t then xs else [] := by
  unfold ofThread
  by_cases hu : u = t
  · simp [List.filter_map, Function.comp_def, hu]
  · simp [List.filter_map, Function.comp_def, hu]

end OfThread

variable [DecidableEq Key] {P : CacheParams Key Value} {maxKeys : ℕ}

namespace System

/-- What a step delivers, with the thread whose loader it is. -/
def delivery (s : System P Exn) (a : Action Key Value Exn) (s' : System P Exn) :
    List (ℕ × Delivery Key Value Exn) :=
  match a.thread with
  | some t => ((s.threads t).delivery (s'.threads t)).map fun d => (t, d)
  | none => []

/-- The loads of a run that have ended. -/
def deliveries (as : List (Action Key Value Exn)) (s : System P Exn) :
    List (ℕ × Delivery Key Value Exn) :=
  Transition.collect step delivery as s

/-- What is known of the loads that have been made. -/
structure Delivered (made : List (ℕ × Delivery Key Value Exn)) (s : System P Exn) : Prop where
  own : ∀ t d, (s.threads t).delivered = some d → (t, d) ∈ made
  past : ∀ x ∈ made, x.2.load.2 < s.nextRecord ∧ ∀ t, (s.threads t).unmade ≠ some x.2.load.2
  once : (made.map fun x => x.2.load.2).Nodup
  /-- A record somebody waits for has its owner at work, or holds what the owner's loader has
  delivered. -/
  joined : ∀ t k r, s.threads t = .waiting k r → ∃ u, u ≠ t ∧
    ((s.threads u).role.owns = some (k, r) ∨
      ∃ out, s.promises r = some out ∧ (u, ⟨(k, r), out⟩) ∈ made)

omit [DecidableEq Key] in
theorem delivered_init (now : TimePoint) : Delivered [] (init P Exn maxKeys now) := by
  constructor
  case own =>
    intro t d hd
    cases hd
  case past => simp
  case once => exact List.nodup_nil
  case joined =>
    intro t k r ht
    cases ht

/-- A move adds to what the owner has made at most what its loader delivers. -/
theorem Move.delivered {s s₁ : System P Exn} {pc pc' : Pc Key Value Exn} (h : Move s pc s₁ pc')
    {d : Delivery Key Value Exn} (hd : pc'.delivered = some d) :
    pc.delivered = some d ∨ pc.delivery pc' = [d] := by
  cases h with
  | call c => cases c <;> cases hd
  | sharedMiss caller | exclusiveMiss caller | exclusiveExpired caller | exclusiveHit caller =>
      cases caller <;> cases hd
  | loaderReturn | loaderThrow =>
      cases hd
      exact .inr rfl
  | loaded =>
      cases hd
      exact .inl rfl
  | complete k r out hpending hopen =>
      cases hd
      exact .inl (delivered_of_pending hpending)
  | _ => cases hd

/-- A load that is still to be made was so before, or is of the next record. -/
theorem Move.unmade {s s₁ : System P Exn} {pc pc' : Pc Key Value Exn} (h : Move s pc s₁ pc')
    {r : RecordId} (hr : pc'.unmade = some r) :
    (pc.unmade = some r ∧ pc.delivery pc' = []) ∨ r = s.nextRecord := by
  cases h with
  | call c => cases c <;> cases hr
  | sharedMiss caller | exclusiveMiss caller | exclusiveExpired caller | exclusiveHit caller =>
      cases caller <;> cases hr
  | recheckOwn =>
      cases hr
      exact .inr rfl
  | load =>
      cases hr
      exact .inl ⟨rfl, rfl⟩
  | _ => cases hr

/-- What a loader delivers was still to be made. -/
theorem Move.delivery {s s₁ : System P Exn} {pc pc' : Pc Key Value Exn} (h : Move s pc s₁ pc') :
    pc.delivery pc' = [] ∨
      ∃ d, pc.delivery pc' = [d] ∧ pc.unmade = some d.load.2 ∧ pc'.unmade = none := by
  cases h with
  | loaderReturn k ttl r v => exact .inr ⟨⟨(k, r), .ok v⟩, rfl, rfl, rfl⟩
  | loaderThrow k ttl r exn => exact .inr ⟨⟨(k, r), .error exn⟩, rfl, rfl, rfl⟩
  | complete k r out hpending hopen =>
      left
      cases pc <;> cases hpending <;> rfl
  | broken k r out out' hpending hdone =>
      left
      cases pc <;> cases hpending <;> rfl
  | _ => exact .inl rfl

/-- An owner keeps its record until it has published the outcome. -/
theorem Move.owns {s s₁ : System P Exn} {pc pc' : Pc Key Value Exn} (h : Move s pc s₁ pc')
    (hpc' : pc' ≠ .broken) {k : Key} {r : RecordId} (hk : pc.role.owns = some (k, r)) :
    pc'.role.owns = some (k, r) ∨ ∃ out, pc = .completed k r out := by
  cases h with
  | complete k' r' out hpending hopen =>
      rw [role_of_pending hpending] at hk
      exact .inl hk
  | broken => exact absurd rfl hpc'
  | unregister k' r' out =>
      cases hk
      exact .inr ⟨out, rfl⟩
  | load | loaderReturn | loaderThrow | loaded => exact .inl hk
  | _ => cases hk

/-- Who starts to wait has found the record in flight. -/
theorem Move.joins {s s₁ : System P Exn} {pc pc' : Pc Key Value Exn} (h : Move s pc s₁ pc')
    {k : Key} {r : RecordId} (hpc' : pc' = .waiting k r) :
    s.flight k = some r ∧ pc.role = .outside := by
  cases h with
  | recheckJoin k' ttl l r' hl hr =>
      cases hpc'
      exact ⟨hr, rfl⟩
  | call c => cases c <;> cases hpc'
  | sharedMiss caller | exclusiveMiss caller | exclusiveExpired caller | exclusiveHit caller =>
      cases caller <;> cases hpc'
  | _ => cases hpc'

/-- Who owns a record goes on with it, or has published what its loader has delivered. -/
theorem Delivered.owner_step {s s' : System P Exn} {a : Action Key Value Exn} (h : Step s a s')
    (hs : s.InFlightSound maxKeys) {made : List (ℕ × Delivery Key Value Exn)} (D : s.Delivered made)
    {u : ℕ} {k : Key} {r : RecordId} (howns : (s.threads u).role.owns = some (k, r)) :
    (s'.threads u).role.owns = some (k, r) ∨
      ∃ out, s'.promises r = some out ∧ (u, ⟨(k, r), out⟩) ∈ made := by
  by_cases ha : a.thread = some u
  · have hbroken := (hs.step h).unbroken u
    rcases step_cases h with ⟨now, rfl, -, -⟩ | ⟨t, s₁, pc', ht, hmove, rfl⟩
    · cases ha
    · obtain rfl : u = t := Option.some.inj (ha.symm.trans ht)
      rw [threads_self_setPc] at hbroken ⊢
      rcases hmove.owns hbroken howns with hown | ⟨out, hpc⟩
      · exact .inl hown
      · have hrole : s.board.role u = .completed k r out := congrArg Pc.role hpc
        have hout : s.board.promise r = some out := hs.sound.completed_holds u k r out hrole
        have hboard := hmove.board_step hs.wellFormed.rep hs.sound
        have hmade := D.own u ⟨(k, r), out⟩ (by rw [hpc]; rfl)
        exact .inr ⟨out, hboard.promise_stable hs.sound hout, hmade⟩
  · rw [threads_of_other h ha]
    exact .inl howns

/-- **One step.** The loads it delivers are added to those that have been made. -/
theorem Delivered.step {s s' : System P Exn} {a : Action Key Value Exn} (h : Step s a s')
    (hs : s.InFlightSound maxKeys) {made : List (ℕ × Delivery Key Value Exn)}
    (D : s.Delivered made) : s'.Delivered (made ++ s.delivery a s') := by
  rcases step_cases h with ⟨now, rfl, -, rfl⟩ | ⟨t, s₁, pc', ha, hmove, rfl⟩
  · simpa [delivery, Action.thread] using ⟨D.own, D.past, D.once, D.joined⟩
  · have hboard := hmove.board_step hs.wellFormed.rep hs.sound
    have hself : (s₁.setPc t pc').threads t = pc' := threads_self_setPc ..
    have hother : ∀ u, u ≠ t → (s₁.setPc t pc').threads u = s.threads u := by
      intro u hu
      refine threads_of_other h fun heq => hu ?_
      exact Option.some.inj (heq.symm.trans ha)
    have hadded : s.delivery a (s₁.setPc t pc') =
        ((s.threads t).delivery pc').map fun d => (t, d) := by
      simp only [delivery, ha, hself]
    rw [hadded]
    constructor
    case own =>
      intro u d hd
      rw [List.mem_append]
      by_cases hu : u = t
      · subst hu
        rw [hself] at hd
        rcases hmove.delivered hd with hold | hnew
        · exact .inl (D.own u d hold)
        · exact .inr (by simp [hnew])
      · rw [hother u hu] at hd
        exact .inl (D.own u d hd)
    case past =>
      intro x hx
      have hnext : s.nextRecord ≤ (s₁.setPc t pc').nextRecord := hboard.next_mono
      -- a load that is still to be made afterwards has not been made before, nor in this step
      rw [List.mem_append] at hx
      rcases hx with hx | hx
      · obtain ⟨hlt, hunmade⟩ := D.past x hx
        refine ⟨hlt.trans_le hnext, fun u hu => ?_⟩
        by_cases hut : u = t
        · subst hut
          rw [hself] at hu
          rcases hmove.unmade hu with ⟨hold, -⟩ | heq
          · exact hunmade u hold
          · exact hlt.ne heq
        · rw [hother u hut] at hu
          exact hunmade u hu
      · rcases hmove.delivery with hnone | ⟨d, hd, hmade, hdone⟩
        · simp [hnone] at hx
        · obtain rfl : x = (t, d) := by simpa [hd] using hx
          obtain ⟨k, howns⟩ := owns_of_unmade hmade
          refine ⟨(hs.sound.owned_created t k _ howns).trans_le hnext, fun u hu => ?_⟩
          by_cases hut : u = t
          · subst hut
            rw [hself, hdone] at hu
            cases hu
          · rw [hother u hut] at hu
            obtain ⟨k', howns'⟩ := owns_of_unmade hu
            exact hut (hs.sound.owner_unique u t k' k _ howns' howns).1
    case once =>
      rw [List.map_append, List.nodup_append]
      refine ⟨D.once, ?_, ?_⟩
      · rcases hmove.delivery with hnone | ⟨d, hd, -, -⟩
        · simp [hnone]
        · simp [hd]
      · rcases hmove.delivery with hnone | ⟨d, hd, hmade, -⟩
        · simp [hnone]
        · rintro r hr r' hr' rfl
          obtain ⟨x, hx, rfl⟩ := List.mem_map.mp hr
          obtain heq : x.2.load.2 = d.load.2 := by simpa [hd] using hr'
          exact (D.past x hx).2 t (by rw [heq]; exact hmade)
    case joined =>
      intro u k r hu
      by_cases hut : u = t
      · subst hut
        rw [hself] at hu
        obtain ⟨hr, houtside⟩ := hmove.joins hu
        obtain ⟨w, hw⟩ := hs.sound.board_owned k r hr
        have hwu : w ≠ u := by
          rintro rfl
          simp [board, houtside, SingleFlight.Role.owns] at hw
        refine ⟨w, hwu, (D.owner_step h hs hw).imp_right ?_⟩
        rintro ⟨out, hout, hmade⟩
        exact ⟨out, hout, List.mem_append_left _ hmade⟩
      · rw [hother u hut] at hu
        obtain ⟨w, hw, hwait⟩ := D.joined u k r hu
        refine ⟨w, hw, ?_⟩
        rcases hwait with howns | ⟨out, hout, hmade⟩
        · refine (D.owner_step h hs howns).imp_right ?_
          rintro ⟨out, hout, hmade⟩
          exact ⟨out, hout, List.mem_append_left _ hmade⟩
        · exact .inr ⟨out, hboard.promise_stable hs.sound hout, List.mem_append_left _ hmade⟩

/-- **A run.** What is known of the loads made before it and in it. -/
theorem Delivered.exec {s s' : System P Exn} {as : List (Action Key Value Exn)}
    (h : Transition.exec System.step as s = some s') (hs : s.InFlightSound maxKeys)
    {made : List (ℕ × Delivery Key Value Exn)} (D : s.Delivered made) :
    s'.Delivered (made ++ deliveries as s) := by
  induction as generalizing s made with
  | nil =>
      cases h
      simpa [deliveries, Transition.collect] using D
  | cons a as ih =>
      obtain ⟨u, hu, hrest⟩ := Option.bind_eq_some_iff.mp h
      have hlater := ih hrest (hs.step hu) (D.step hu hs)
      rw [deliveries, Transition.collect_cons hu]
      simpa [deliveries, List.append_assoc] using hlater

/-- Who waits for a record whose promise is completed gets what another thread's load of that key
and record has delivered. -/
theorem Delivered.published {s : System P Exn} {made : List (ℕ × Delivery Key Value Exn)}
    (D : s.Delivered made) (hs : s.InFlightSound maxKeys) {t : ℕ} {k : Key} {r : RecordId}
    (ht : s.threads t = .waiting k r) {out : Except Exn Value} (hout : s.promises r = some out) :
    ∃ u, u ≠ t ∧ (u, ⟨(k, r), out⟩) ∈ made := by
  obtain ⟨u, hu, howns | ⟨out', hout', hmade⟩⟩ := D.joined t k r ht
  · -- the owner has not erased the record, but it has completed its promise
    have hcompleted : s.threads u = .completed k r out := by
      cases hpc : s.threads u with
      | completed k' r' out' =>
          rw [hpc] at howns
          cases howns
          have hholds := hs.sound.completed_holds u k r out' (congrArg Pc.role hpc)
          rw [Option.some.inj (hholds.symm.trans hout)]
      | registered k' ttl r' | loading k' ttl r' | loaded k' ttl r' v | stored k' r' v ok
      | threw k' r' exn =>
          rw [hpc] at howns
          cases howns
          have hopen := hs.sound.working_open u k r (congrArg Pc.role hpc)
          exact absurd (hopen.symm.trans hout) (by simp)
      | _ =>
          rw [hpc] at howns
          cases howns
    exact ⟨u, hu, D.own u _ (by rw [hcompleted]; rfl)⟩
  · obtain rfl : out' = out := Option.some.inj (hout'.symm.trans hout)
    exact ⟨u, hu, hmade⟩

end System
end MiniRedis
