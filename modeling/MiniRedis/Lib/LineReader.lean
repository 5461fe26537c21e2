import MiniRedis.Lib.Splitting

/-!
# Reading lines from a stream

A reader gets a stream of symbols piece by piece. It appends each piece to a buffer and takes the
complete lines off the front of the buffer, one at a time, until its state is no longer alive. What
it does depends on the stream alone, and not on how it is cut (`receive_eq`).
-/
namespace LineReader
variable {α σ : Type} [DecidableEq α] (eol : α) (alive : σ → Bool) (handle : List α → σ → σ)

/-- Handle lines in turn, up to the one that ends it. -/
def serve : List (List α) → σ → σ
  | [], s => s
  | l :: ls, s => if alive (handle l s) then serve ls (handle l s) else handle l s

/-- Take complete lines off the front of the buffer. -/
def drain (buffer : List α) (s : σ) : List α × σ :=
  match h : buffer.idxOf? eol with
  | none => (buffer, s)
  | some pos =>
      let line := buffer.take pos
      let rest := buffer.drop (pos + 1)
      if alive (handle line s) then drain rest (handle line s) else (rest, handle line s)
termination_by buffer.length
decreasing_by
  have hne : buffer ≠ [] := by
    rintro rfl
    cases h
  have := List.length_pos_iff.mpr hne
  simp only [List.length_drop]
  omega

/-- Receive the pieces of a stream. -/
def receive : List (List α) → List α → σ → σ
  | [], _, s => s
  | c :: cs, buffer, s =>
      let r := drain eol alive handle (buffer ++ c) s
      if alive r.2 then receive cs r.1 r.2 else r.2

variable {eol alive handle}

omit [DecidableEq α] in
theorem serve_append {ls ms : List (List α)} {s : σ} (h : alive s = true) :
    serve alive handle (ls ++ ms) s =
      if alive (serve alive handle ls s) then serve alive handle ms (serve alive handle ls s)
      else serve alive handle ls s := by
  induction ls generalizing s with
  | nil => simp [serve, h]
  | cons l ls ih =>
      cases hl : alive (handle l s) with
      | true => simp only [List.cons_append, serve, hl, if_true, ih hl]
      | false => simp [serve, hl]

theorem drain_of_notMem {buffer : List α} (h : eol ∉ buffer) (s : σ) :
    drain eol alive handle buffer s = (buffer, s) := by
  have hnone : buffer.idxOf? eol = none := by simpa using h
  rw [drain]
  split
  · rfl
  · next hpos =>
    rw [hnone] at hpos
    cases hpos

theorem idxOf?_append_eol {l : List α} (h : eol ∉ l) (m : List α) :
    (l ++ eol :: m).idxOf? eol = some l.length := by
  rw [List.idxOf?_eq_some_iff]
  refine ⟨by simp, by simp, ?_⟩
  intro j hj heq
  rw [List.getElem_append_left hj] at heq
  exact h (heq ▸ List.getElem_mem hj)

/-- Where the first line ends. -/
theorem exists_of_idxOf? {buffer : List α} {pos : ℕ} (h : buffer.idxOf? eol = some pos) :
    ∃ l m, buffer = l ++ eol :: m ∧ eol ∉ l ∧ buffer.take pos = l ∧ buffer.drop (pos + 1) = m := by
  have hmem : eol ∈ buffer := by
    by_contra hmem
    have hnone : buffer.idxOf? eol = none := by simpa using hmem
    cases hnone.symm.trans h
  obtain ⟨l, m, rfl, hl⟩ := List.eq_append_cons_of_mem hmem
  obtain rfl : l.length = pos := Option.some.inj ((idxOf?_append_eol hl m).symm.trans h)
  exact ⟨l, m, rfl, hl, by simp, by simp⟩

theorem drain_append_eol {l : List α} (h : eol ∉ l) (m : List α) (s : σ) :
    drain eol alive handle (l ++ eol :: m) s =
      if alive (handle l s) then drain eol alive handle m (handle l s) else (m, handle l s) := by
  have hfirst := idxOf?_append_eol h m
  rw [drain]
  split
  · next hpos =>
    rw [hfirst] at hpos
    cases hpos
  · next pos hpos =>
    rw [hfirst, Option.some.injEq] at hpos
    subst hpos
    simp

/-- **What the buffer holds is served line by line**, and if the state survives, what is left of the
buffer is what follows the last line. -/
theorem drain_spec (eol : α) (handle : List α → σ → σ) (buffer : List α) {s : σ} (hs : alive s = true) :
    (drain eol alive handle buffer s).2 =
        serve alive handle (Splitting.terminated eol buffer) s ∧
      (alive (drain eol alive handle buffer s).2 = true →
        (drain eol alive handle buffer s).1 = Splitting.unterminated eol buffer) := by
  generalize hls : Splitting.terminated eol buffer = ls
  induction ls generalizing buffer s with
  | nil =>
      have hmem : eol ∉ buffer := by
        rw [← List.count_eq_zero, ← Splitting.length_terminated, hls]
        rfl
      rw [drain_of_notMem hmem]
      exact ⟨rfl, fun _ => (Splitting.unterminated_of_notMem hmem).symm⟩
  | cons l ls ih =>
      have hmem : eol ∈ buffer := by
        rw [← List.count_pos_iff, ← Splitting.length_terminated, hls]
        exact Nat.succ_pos _
      obtain ⟨l', m, rfl, hl'⟩ := List.eq_append_cons_of_mem hmem
      rw [Splitting.terminated_append_eol hl'] at hls
      obtain ⟨rfl, hm⟩ := List.cons.inj hls
      rw [drain_append_eol hl', serve, Splitting.unterminated_append_eol hl']
      cases hl : alive (handle l' s) with
      | true =>
          rw [if_pos rfl, if_pos rfl]
          exact ih m hl hm
      | false =>
          simp only [Bool.false_eq_true, if_false, true_and]
          intro h
          cases h.symm.trans hl

/-- **The pieces do not matter.** -/
theorem receive_eq (cs : List (List α)) {buffer : List α} (hbuffer : eol ∉ buffer) {s : σ}
    (hs : alive s = true) :
    receive eol alive handle cs buffer s =
      serve alive handle (Splitting.terminated eol (buffer ++ cs.flatten)) s := by
  induction cs generalizing buffer s with
  | nil =>
      rw [List.flatten_nil, List.append_nil, Splitting.terminated_of_notMem hbuffer]
      rfl
  | cons c cs ih =>
      obtain ⟨hstate, hrest⟩ := drain_spec eol handle (buffer ++ c) hs
      rw [receive, List.flatten_cons, ← List.append_assoc, Splitting.terminated_append,
        serve_append hs, ← hstate]
      cases hl : alive (drain eol alive handle (buffer ++ c) s).2 with
      | true =>
          rw [if_pos rfl, if_pos rfl, hrest hl]
          exact ih (Splitting.notMem_cutFrom (by simp)).2 hl
      | false => rfl

end LineReader
