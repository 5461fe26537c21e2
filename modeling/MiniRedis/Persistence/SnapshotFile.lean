import MiniRedis.Persistence.Log

/-!
# Replacing the snapshot file

`write_snapshot_file` writes a temporary file, removes the old snapshot and renames the temporary
file. Each operation on the files may fail, and the process may crash after each of them. The state
of the output stream is not looked at, and the removal comes before the renaming; so the snapshot
is replaced as a whole if and only if whatever precedes a successful renaming succeeded as well, and
the process neither stops nor fails between the removal and the renaming.

What a failed operation leaves in the temporary file is up to the library: a stream whose flush has
failed can write its buffer once more when it is closed. So it is given with the outcome.
-/
namespace MiniRedis

/-- How an operation ends: well or not. If it is one that need not write all that was put out, so many
bytes have reached the temporary file by then; if not all is well with the stream, the file holds what
is left there. -/
structure OpOutcome where
  ok : Bool
  reached : ℕ
  left : Bytes
  deriving DecidableEq, Repr

/-- The next operation. -/
inductive SnapshotPc
  | opening (lines : List Bytes)
  /-- The next of the lines is put out, or the stream is flushed when there is none. -/
  | writing (lines : List Bytes)
  | closing
  | removing
  | renaming
  /-- The temporary file is removed because it could not be renamed. -/
  | cleaning
  | done
  deriving DecidableEq, Repr

/-- `write_snapshot_file` at work. A file that does not exist has no contents. -/
structure SnapshotWriter where
  pc : SnapshotPc
  snapshot : Option Bytes
  tmp : Option Bytes
  /-- What was put out while the stream was good. -/
  put : Bytes
  good : Bool
  /-- A write, the flush, the removal or the renaming has failed. Nothing depends on it. -/
  failed : Bool
  deriving DecidableEq, Repr

/-- The lines of a snapshot, each as it is put out. -/
def snapshotLines (nowEpochMs : Millis) (items : List (SnapshotItem Bytes Bytes)) : List Bytes :=
  (snapshotHeader nowEpochMs :: items.map snapshotLine).map fun line => line ++ [newline]

theorem flatten_snapshotLines (nowEpochMs : Millis) (items : List (SnapshotItem Bytes Bytes)) :
    (snapshotLines nowEpochMs items).flatten = snapshotText nowEpochMs items := rfl

namespace SnapshotWriter

def start (lines : List Bytes) (snapshot tmp : Option Bytes) : SnapshotWriter :=
  ⟨.opening lines, snapshot, tmp, [], true, false⟩

/-- The part of what was put out that has reached the temporary file. -/
def arrived (x : OpOutcome) (put : Bytes) (tmp : Option Bytes) : Bytes :=
  put.take (max x.reached (tmp.getD []).length)

/-- One operation. -/
def step (x : OpOutcome) (s : SnapshotWriter) : SnapshotWriter :=
  match s.pc with
  | .opening lines =>
      if x.ok then { s with pc := .writing lines, tmp := some [], put := [], good := true }
      else { s with pc := .done }
  | .writing (line :: lines) =>
      if s.good then
        { s with
          pc := .writing lines
          put := s.put ++ line
          tmp := some (if x.ok then arrived x (s.put ++ line) s.tmp else x.left)
          good := x.ok
          failed := s.failed || !x.ok }
      else { s with pc := .writing lines }
  | .writing [] =>
      if s.good then
        { s with
          pc := .closing
          tmp := some (if x.ok then s.put else x.left)
          good := x.ok
          failed := s.failed || !x.ok }
      else { s with pc := .closing }
  | .closing => { s with pc := .removing, tmp := some (if s.good && x.ok then s.put else x.left) }
  | .removing =>
      if x.ok then { s with pc := .renaming, snapshot := none }
      else { s with pc := .renaming, failed := true }
  | .renaming =>
      -- the error of the removal is overwritten here
      if x.ok then { s with pc := .done, snapshot := s.tmp, tmp := none }
      else { s with pc := .cleaning, failed := true }
  | .cleaning => { s with pc := .done, tmp := if x.ok then none else s.tmp }
  | .done => s

/-- The first `n` operations. -/
def perform (o : ℕ → OpOutcome) (s : SnapshotWriter) : ℕ → SnapshotWriter
  | 0 => s
  | n + 1 => (perform o s n).step (o n)

/-- `write_snapshot_file`, stopped after `n` operations. -/
def writeSnapshotFile (nowEpochMs : Millis) (items : List (SnapshotItem Bytes Bytes))
    (snapshot tmp : Option Bytes) (o : ℕ → OpOutcome) (n : ℕ) : SnapshotWriter :=
  perform o (start (snapshotLines nowEpochMs items) snapshot tmp) n

/-- The snapshot file is the previous one or the complete new one, and it is the previous one if an
operation has failed. -/
structure Intact (snapshot : Option Bytes) (text : Bytes) (s : SnapshotWriter) : Prop where
  complete : s.snapshot = snapshot ∨ s.snapshot = some text
  kept : s.failed = true → s.snapshot = snapshot

/-- What the temporary file holds when it is closed. The operations are the opening, one for each
line, the flush, the closing, the removal and the renaming. -/
def closedText (lines : List Bytes) (o : ℕ → OpOutcome) : Bytes :=
  if ∀ i < lines.length + 2, (o (i + 1)).ok = true then lines.flatten else (o (lines.length + 2)).left

/-- With the file opened, either it was renamed, all that is counted as a failure had succeeded and the
closing lost nothing, or what was left there is what the previous snapshot was; or it was not renamed,
and no previous snapshot was removed. -/
def SafeOutcomes (lines : List Bytes) (snapshot : Option Bytes) (o : ℕ → OpOutcome) (n : ℕ) : Prop :=
  (o 0).ok = true →
    if lines.length + 4 < n ∧ (o (lines.length + 4)).ok = true then
      ((∀ i < lines.length + 1, (o (i + 1)).ok = true) ∧ (o (lines.length + 3)).ok = true ∧
          closedText lines o = lines.flatten) ∨
        snapshot = some (closedText lines o)
    else lines.length + 3 < n → (o (lines.length + 3)).ok = false ∨ snapshot = none

/-! ## The phases -/

section Phases
variable {lines : List Bytes} {snapshot tmp : Option Bytes} {o : ℕ → OpOutcome}

/-- The temporary file could not be opened. -/
theorem perform_of_open_failed (h : (o 0).ok = false) (n : ℕ) :
    perform o (start lines snapshot tmp) (n + 1) =
      { start lines snapshot tmp with pc := .done } := by
  induction n with
  | zero => simp [perform, step, start, h]
  | succ n ih =>
      rw [perform, ih]
      rfl

/-- Some lines have been put out. -/
structure Writing (lines : List Bytes) (snapshot : Option Bytes) (o : ℕ → OpOutcome) (k : ℕ)
    (s : SnapshotWriter) : Prop where
  pc : s.pc = .writing (lines.drop k)
  snapshot : s.snapshot = snapshot
  failed : s.failed = !s.good
  good : s.good = true ↔ ∀ i < k, (o (i + 1)).ok = true
  put : s.good = true → s.put = (lines.take k).flatten

theorem forall_lt_succ_iff {k : ℕ} : (∀ i < k + 1, (o (i + 1)).ok = true) ↔
    (∀ i < k, (o (i + 1)).ok = true) ∧ (o (k + 1)).ok = true := by
  constructor
  · intro h
    exact ⟨fun i hi => h i (Nat.lt_succ_of_lt hi), h k (Nat.lt_succ_self k)⟩
  · rintro ⟨h, hk⟩ i hi
    rcases Nat.lt_succ_iff_lt_or_eq.mp hi with hi | rfl
    · exact h i hi
    · exact hk

theorem writing_perform (lines : List Bytes) (snapshot tmp : Option Bytes)
    (h : (o 0).ok = true) {k : ℕ} (hk : k ≤ lines.length) :
    Writing lines snapshot o k (perform o (start lines snapshot tmp) (k + 1)) := by
  induction k with
  | zero => constructor <;> simp [perform, step, start, h]
  | succ k ih =>
      have W := ih (Nat.le_of_succ_le hk)
      rw [perform]
      generalize perform o (start lines snapshot tmp) (k + 1) = s at W ⊢
      have hline : lines.drop k = lines[k] :: lines.drop (k + 1) := List.drop_eq_getElem_cons hk
      have hpc := W.pc
      rw [hline] at hpc
      cases hgood : s.good with
      | false =>
          have hstep : s.step (o (k + 1)) = { s with pc := .writing (lines.drop (k + 1)) } := by
            simp only [step, hpc, hgood, Bool.false_eq_true, if_false]
          have hbad := W.good.not.mp (by simp [hgood])
          rw [hstep]
          refine ⟨rfl, W.snapshot, W.failed, ?_, ?_⟩
          · rw [forall_lt_succ_iff]
            exact iff_of_false (by simp [hgood]) fun hall => hbad hall.1
          · intro hg
            cases hgood.symm.trans hg
      | true =>
          have hfailed : s.failed = false := by rw [W.failed, hgood]; rfl
          have hall := W.good.mp hgood
          simp only [step, hpc, hgood, if_true]
          refine ⟨rfl, W.snapshot, by simp [hfailed], ?_, ?_⟩
          · rw [forall_lt_succ_iff]
            exact ⟨fun hok => ⟨hall, hok⟩, fun hok => hok.2⟩
          · intro _
            rw [W.put hgood, ← List.take_append_getElem hk, List.flatten_append]
            simp

/-- The stream is closed. -/
structure Closed (lines : List Bytes) (snapshot : Option Bytes) (o : ℕ → OpOutcome)
    (s : SnapshotWriter) : Prop where
  pc : s.pc = .removing
  snapshot : s.snapshot = snapshot
  failed : s.failed = false ↔ ∀ i < lines.length + 1, (o (i + 1)).ok = true
  tmp : s.tmp = some (closedText lines o)

theorem closed_perform (lines : List Bytes) (snapshot tmp : Option Bytes)
    (h : (o 0).ok = true) :
    Closed lines snapshot o (perform o (start lines snapshot tmp) (lines.length + 3)) := by
  have W := writing_perform lines snapshot tmp h (le_refl lines.length)
  rw [perform, perform]
  generalize perform o (start lines snapshot tmp) (lines.length + 1) = s at W ⊢
  have hpc := W.pc
  rw [List.drop_length] at hpc
  have hwritten : (∀ i < lines.length + 1, (o (i + 1)).ok = true) ↔
      s.good = true ∧ (o (lines.length + 1)).ok = true := by
    rw [W.good, ← forall_lt_succ_iff]
  have hall : (∀ i < lines.length + 2, (o (i + 1)).ok = true) ↔
      (s.good = true ∧ (o (lines.length + 1)).ok = true) ∧ (o (lines.length + 2)).ok = true := by
    rw [forall_lt_succ_iff, hwritten]
  have hfailed := W.failed
  have hput := W.put
  rw [List.take_length] at hput
  cases hgood : s.good with
  | false =>
      rw [hgood] at hfailed
      simp only [step, hpc, hgood, Bool.false_eq_true, if_false]
      refine ⟨rfl, W.snapshot, ?_, ?_⟩
      · rw [hwritten, hgood, hfailed]
        simp
      · simp [closedText, hall, hgood]
  | true =>
      rw [hgood] at hfailed
      cases hflush : (o (lines.length + 1)).ok with
      | false =>
          simp only [step, hpc, hgood, hflush, if_true]
          refine ⟨rfl, W.snapshot, ?_, ?_⟩
          · rw [hwritten, hflush]
            simp
          · simp [closedText, hall, hflush]
      | true =>
          simp only [step, hpc, hgood, hflush, if_true]
          refine ⟨rfl, W.snapshot, ?_, ?_⟩
          · rw [hwritten, hgood, hflush, hfailed]
            simp
          · simp only [closedText, hall, hgood, hflush, true_and, Bool.true_and, hput hgood]

/-- After the renaming nothing happens to the snapshot any more. -/
theorem perform_after (s : SnapshotWriter) (h : s.pc = .cleaning ∨ s.pc = .done) (o : ℕ → OpOutcome)
    (n : ℕ) : (perform o s n).snapshot = s.snapshot ∧ (perform o s n).failed = s.failed ∧
      ((perform o s n).pc = .cleaning ∨ (perform o s n).pc = .done) := by
  induction n with
  | zero => exact ⟨rfl, rfl, h⟩
  | succ n ih =>
      obtain ⟨hsnapshot, hfailed, hpc⟩ := ih
      rw [perform]
      generalize perform o s n = t at hsnapshot hfailed hpc ⊢
      rcases hpc with hpc | hpc
      · have hstep : (t.step (o n)).pc = .done := by simp only [step, hpc]
        refine ⟨?_, ?_, .inr hstep⟩ <;> simpa only [step, hpc]
      · have hstep : t.step (o n) = t := by simp only [step, hpc]
        rw [hstep]
        exact ⟨hsnapshot, hfailed, .inr hpc⟩

theorem perform_add (o : ℕ → OpOutcome) (s : SnapshotWriter) (m n : ℕ) :
    perform o s (m + n) = perform (fun i => o (m + i)) (perform o s m) n := by
  induction n with
  | zero => rfl
  | succ n ih =>
      change (perform o s (m + n)).step (o (m + n)) = _
      rw [ih]
      rfl

/-- Nothing happens to the snapshot before the stream is closed. -/
theorem snapshot_perform (lines : List Bytes) (snapshot tmp : Option Bytes)
    (h : (o 0).ok = true) {n : ℕ} (hn : n ≤ lines.length + 3) :
    (perform o (start lines snapshot tmp) n).snapshot = snapshot := by
  rcases n with _ | n
  · rfl
  · by_cases hwriting : n ≤ lines.length
    · exact (writing_perform lines snapshot tmp h hwriting).snapshot
    · by_cases hclosed : n = lines.length + 2
      · rw [hclosed]
        exact (closed_perform lines snapshot tmp h).snapshot
      · obtain rfl : n = lines.length + 1 := by omega
        have W := writing_perform lines snapshot tmp h (le_refl lines.length)
        have hpc := W.pc
        rw [List.drop_length] at hpc
        rw [perform]
        generalize perform o (start lines snapshot tmp) (lines.length + 1) = s at W hpc ⊢
        simp only [step, hpc]
        split <;> exact W.snapshot

end Phases

/-! ## The last two operations -/

theorem step_removing {s : SnapshotWriter} (h : s.pc = .removing) (x : OpOutcome) :
    s.step x = { s with
      pc := .renaming
      snapshot := if x.ok then none else s.snapshot
      failed := s.failed || !x.ok } := by
  cases hx : x.ok <;> simp [step, h, hx]

theorem step_renaming {s : SnapshotWriter} (h : s.pc = .renaming) (x : OpOutcome) :
    (s.step x).snapshot = (if x.ok then s.tmp else s.snapshot) ∧
      (s.step x).failed = (s.failed || !x.ok) ∧
      ((s.step x).pc = .cleaning ∨ (s.step x).pc = .done) := by
  cases hx : x.ok <;> simp [step, h, hx]

/-- The removal and the renaming. -/
theorem step_step_removing {s : SnapshotWriter} (h : s.pc = .removing) (x y : OpOutcome) :
    ((s.step x).step y).snapshot =
        (if y.ok then s.tmp else if x.ok then none else s.snapshot) ∧
      ((s.step x).step y).failed = (s.failed || !x.ok || !y.ok) ∧
      (((s.step x).step y).pc = .cleaning ∨ ((s.step x).step y).pc = .done) := by
  have hx := step_removing h x
  have hy := step_renaming (s := s.step x) (by rw [hx]) y
  rw [hx] at hy
  rwa [hx]

section Renaming
variable {lines : List Bytes} {snapshot : Option Bytes} {o : ℕ → OpOutcome} {s : SnapshotWriter}

/-- Between the two operations there is a snapshot if there was none to remove or it was not
removed. -/
theorem intact_removed_iff (C : Closed lines snapshot o s) (x : OpOutcome) :
    (s.step x).Intact snapshot lines.flatten ↔ x.ok = false ∨ snapshot = none := by
  rw [step_removing C.pc, C.snapshot]
  cases hx : x.ok with
  | false =>
      simp only [Bool.false_eq_true, if_false, true_or, iff_true]
      exact ⟨.inl rfl, fun _ => rfl⟩
  | true =>
      simp only [if_true, Bool.true_eq_false, false_or]
      constructor
      · intro h
        rcases h.complete with h | h
        · exact h.symm
        · cases h
      · rintro rfl
        exact ⟨.inl rfl, fun _ => rfl⟩

/-- After them. -/
theorem intact_renamed_iff (C : Closed lines snapshot o s) {t : SnapshotWriter}
    (hsnapshot : t.snapshot = ((s.step (o (lines.length + 3))).step (o (lines.length + 4))).snapshot)
    (hfailed : t.failed = ((s.step (o (lines.length + 3))).step (o (lines.length + 4))).failed) :
    t.Intact snapshot lines.flatten ↔
      if (o (lines.length + 4)).ok = true then
        ((∀ i < lines.length + 1, (o (i + 1)).ok = true) ∧ (o (lines.length + 3)).ok = true ∧
            closedText lines o = lines.flatten) ∨
          snapshot = some (closedText lines o)
      else (o (lines.length + 3)).ok = false ∨ snapshot = none := by
  obtain ⟨hsnap, hfail, -⟩ := step_step_removing C.pc (o (lines.length + 3)) (o (lines.length + 4))
  rw [hsnap, C.snapshot, C.tmp] at hsnapshot
  rw [hfail] at hfailed
  cases hy : (o (lines.length + 4)).ok with
  | false =>
      simp only [hy, Bool.false_eq_true, if_false, Bool.not_false, Bool.or_true] at hsnapshot hfailed ⊢
      have hiff : t.Intact snapshot lines.flatten ↔ t.snapshot = snapshot :=
        ⟨fun h => h.kept hfailed, fun h => ⟨.inl h, fun _ => h⟩⟩
      rw [hiff, hsnapshot]
      cases hx : (o (lines.length + 3)).ok <;> simp [eq_comm]
  | true =>
      simp only [hy, if_true, Bool.not_true, Bool.or_false] at hsnapshot hfailed ⊢
      rw [← C.failed]
      constructor
      · intro h
        cases hbad : t.failed with
        | true => exact .inr ((h.kept hbad).symm.trans hsnapshot)
        | false =>
            rw [hbad] at hfailed
            have hgood : s.failed = false ∧ (o (lines.length + 3)).ok = true := by
              simpa using hfailed.symm
            rcases h.complete with hold | hnew
            · exact .inr (hold.symm.trans hsnapshot)
            · exact .inl ⟨hgood.1, hgood.2, Option.some.inj (hsnapshot.symm.trans hnew)⟩
      · rintro (⟨hgood, hx, hwhole⟩ | hsame)
        · rw [hwhole] at hsnapshot
          refine ⟨.inr hsnapshot, ?_⟩
          intro hbad
          rw [hfailed, hgood, hx] at hbad
          cases hbad
        · have hsnapshot' := hsnapshot.trans hsame.symm
          exact ⟨.inl hsnapshot', fun _ => hsnapshot'⟩

end Renaming

/-- **When the snapshot is replaced as a whole.** -/
theorem intact_perform_iff (lines : List Bytes) (snapshot tmp : Option Bytes) (o : ℕ → OpOutcome)
    (n : ℕ) : (perform o (start lines snapshot tmp) n).Intact snapshot lines.flatten ↔
      SafeOutcomes lines snapshot o n := by
  by_cases h : (o 0).ok = true
  · simp only [SafeOutcomes, h, true_imp_iff]
    by_cases hn : n ≤ lines.length + 3
    · have hsame := snapshot_perform lines snapshot tmp h hn
      rw [if_neg (by omega)]
      exact iff_of_true ⟨.inl hsame, fun _ => hsame⟩ fun hlt => absurd hn (not_le.mpr hlt)
    · have C := closed_perform lines snapshot tmp h
      by_cases hremoved : n = lines.length + 4
      · subst hremoved
        rw [perform, intact_removed_iff C, if_neg (by omega)]
        exact ⟨fun hsafe _ => hsafe, fun hsafe => hsafe (by omega)⟩
      · obtain ⟨j, rfl⟩ : ∃ j, n = lines.length + 3 + 2 + j := ⟨n - lines.length - 5, by omega⟩
        have hlate : lines.length + 4 < lines.length + 3 + 2 + j := by omega
        have hremoval : lines.length + 3 < lines.length + 3 + 2 + j := by omega
        obtain ⟨-, -, hpc⟩ := step_step_removing C.pc (o (lines.length + 3)) (o (lines.length + 4))
        obtain ⟨hsnapshot, hfailed, -⟩ := perform_after _ hpc
          (fun i => o (lines.length + 3 + 2 + i)) j
        rw [perform_add]
        refine (intact_renamed_iff C hsnapshot hfailed).trans ?_
        simp only [hlate, hremoval, true_and, true_imp_iff]
  · rw [Bool.not_eq_true] at h
    refine iff_of_true ?_ (by simp [SafeOutcomes, h])
    rcases n with _ | n
    · exact ⟨.inl rfl, fun _ => rfl⟩
    · rw [perform_of_open_failed h]
      exact ⟨.inl rfl, fun _ => rfl⟩

/-- **A snapshot file is replaced as a whole if and only if the outcomes of the operations allow
it.** -/
theorem intact_writeSnapshotFile_iff (nowEpochMs : Millis) (items : List (SnapshotItem Bytes Bytes))
    (snapshot tmp : Option Bytes) (o : ℕ → OpOutcome) (n : ℕ) :
    (writeSnapshotFile nowEpochMs items snapshot tmp o n).Intact snapshot
        (snapshotText nowEpochMs items) ↔
      SafeOutcomes (snapshotLines nowEpochMs items) snapshot o n :=
  intact_perform_iff (snapshotLines nowEpochMs items) snapshot tmp o n

/-- The process stops between the removal of the old snapshot and the renaming of the new one. -/
theorem snapshot_lost_before_rename :
    ¬ ∀ (nowEpochMs : Millis) (items : List (SnapshotItem Bytes Bytes)) (snapshot tmp : Option Bytes)
      (o : ℕ → OpOutcome) (n : ℕ),
      (writeSnapshotFile nowEpochMs items snapshot tmp o n).Intact snapshot
        (snapshotText nowEpochMs items) := by
  intro h
  have hlost : (writeSnapshotFile 7 [⟨ascii "k", ascii "v", none⟩]
      (some (snapshotText 0 [])) none (fun _ => ⟨true, 0, []⟩) 6).snapshot = none := by decide +kernel
  rcases (h 7 [⟨ascii "k", ascii "v", none⟩] (some (snapshotText 0 [])) none
    (fun _ => ⟨true, 0, []⟩) 6).complete with hold | hnew
  · rw [hlost] at hold
    cases hold
  · rw [hlost] at hnew
    cases hnew

/-- When every operation succeeds, the snapshot shows the items in the end. -/
theorem snapshot_writeSnapshotFile (nowEpochMs : Millis) (items : List (SnapshotItem Bytes Bytes))
    (snapshot tmp : Option Bytes) {o : ℕ → OpOutcome} (h : ∀ i, (o i).ok = true) {n : ℕ}
    (hn : (snapshotLines nowEpochMs items).length + 4 < n) :
    (writeSnapshotFile nowEpochMs items snapshot tmp o n).snapshot =
      some (snapshotText nowEpochMs items) := by
  have C := closed_perform (snapshotLines nowEpochMs items) snapshot tmp (h 0)
  have htmp := C.tmp
  rw [closedText, if_pos fun i _ => h (i + 1)] at htmp
  obtain ⟨hrenamed, -, hpc⟩ := step_step_removing C.pc
    (o ((snapshotLines nowEpochMs items).length + 3)) (o ((snapshotLines nowEpochMs items).length + 4))
  obtain ⟨j, rfl⟩ : ∃ j, n = (snapshotLines nowEpochMs items).length + 3 + 2 + j :=
    ⟨n - (snapshotLines nowEpochMs items).length - 5, by omega⟩
  rw [writeSnapshotFile, perform_add]
  refine (perform_after _ hpc _ j).1.trans (hrenamed.trans ?_)
  rw [h, if_pos rfl, ← flatten_snapshotLines]
  exact htmp

end SnapshotWriter
end MiniRedis
