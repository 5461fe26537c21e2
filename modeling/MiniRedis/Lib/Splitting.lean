import Mathlib.Data.List.Basic

/-!
# Cutting a text into words and lines

A text is a list of symbols. Its words are the maximal runs of symbols that are not separators; its
lines are what stands before each end-of-line mark, and after the last one unless nothing does. A
line is complete if a mark ends it. All are computed in one pass that carries the piece read so far.

## Main results

* `words_append_sep` — a separator cuts a text into two whose words can be computed apart.
* `mem_words` — a word is not empty and holds no separator.
* `exists_words_append` — the words of a text that goes on are the same but for the last.
* `lines_append_eol` — the line before the first end-of-line mark is the first line.
* `words_trim` — leading and trailing separators do not matter.
* `words_filter` — symbols left out of a text are left out of its words.
* `words_flatMap` — the words of an encoded text are its words, encoded.
* `runs_iff` — the words are the maximal runs of non-separators.
* `cutFrom_append` — a text can be cut into lines piece by piece.
* `lines_eq` — the lines are the complete ones and what is left over.
-/
namespace Splitting
variable {α : Type}

/-- A piece, unless it is empty. -/
def emit (w : List α) : List (List α) := if w.isEmpty then [] else [w]

@[simp] theorem emit_nil : emit ([] : List α) = [] := rfl

theorem emit_of_ne_nil {w : List α} (h : w ≠ []) : emit w = [w] := by
  cases w with
  | nil => exact absurd rfl h
  | cons a w => rfl

theorem mem_emit {w v : List α} : v ∈ emit w ↔ v = w ∧ w ≠ [] := by
  cases w <;> simp [emit]

/-! ## Words -/

section Words
variable (sep : α → Bool)

/-- The words of a text, the first of which begins with `w`. -/
def wordsFrom (w : List α) : List α → List (List α)
  | [] => emit w
  | a :: l => if sep a then emit w ++ wordsFrom [] l else wordsFrom (w ++ [a]) l

/-- The maximal runs of non-separators. -/
def words (l : List α) : List (List α) := wordsFrom sep [] l

/-- A text without its leading and trailing separators. -/
def trim (l : List α) : List α := ((l.dropWhile sep).reverse.dropWhile sep).reverse

variable {sep}

theorem wordsFrom_append_sep {s : α} (hs : sep s = true) (m : List α) (l w : List α) :
    wordsFrom sep w (l ++ s :: m) = wordsFrom sep w l ++ words sep m := by
  induction l generalizing w with
  | nil => simp [wordsFrom, words, hs]
  | cons a l ih =>
      by_cases ha : sep a = true
      · simp [wordsFrom, ha, ih]
      · simp [wordsFrom, ha, ih]

/-- **A separator cuts a text in two.** -/
theorem words_append_sep {s : α} (hs : sep s = true) (l m : List α) :
    words sep (l ++ s :: m) = words sep l ++ words sep m := wordsFrom_append_sep hs m l []

theorem wordsFrom_of_forall {l : List α} (h : ∀ a ∈ l, sep a = false) (w : List α) :
    wordsFrom sep w l = emit (w ++ l) := by
  induction l generalizing w with
  | nil => simp [wordsFrom]
  | cons a l ih =>
      have ha := h a List.mem_cons_self
      have hl := ih fun b hb => h b (List.mem_cons_of_mem a hb)
      simp [wordsFrom, ha, hl]

/-- A text without separators is a word, or empty. -/
theorem words_of_forall {l : List α} (h : ∀ a ∈ l, sep a = false) : words sep l = emit l :=
  wordsFrom_of_forall h []

@[simp] theorem words_nil : words sep [] = [] := rfl

theorem words_cons_sep {s : α} (hs : sep s = true) (l : List α) :
    words sep (s :: l) = words sep l := words_append_sep hs [] l

theorem mem_wordsFrom {l w v : List α} (hw : ∀ a ∈ w, sep a = false)
    (hv : v ∈ wordsFrom sep w l) : v ≠ [] ∧ ∀ a ∈ v, sep a = false := by
  induction l generalizing w with
  | nil =>
      obtain ⟨rfl, hne⟩ := mem_emit.mp hv
      exact ⟨hne, hw⟩
  | cons a l ih =>
      by_cases ha : sep a = true
      · simp only [wordsFrom, ha, if_true, List.mem_append] at hv
        cases hv with
        | inl hv =>
            obtain ⟨rfl, hne⟩ := mem_emit.mp hv
            exact ⟨hne, hw⟩
        | inr hv => exact ih (by simp) hv
      · simp only [wordsFrom, ha, Bool.false_eq_true, if_false] at hv
        apply ih _ hv
        intro b hb
        simp only [List.mem_append, List.mem_singleton] at hb
        cases hb with
        | inl hb => exact hw b hb
        | inr hb => simpa [hb] using ha

/-- **A word is not empty and holds no separator.** -/
theorem mem_words {l v : List α} (hv : v ∈ words sep l) : v ≠ [] ∧ ∀ a ∈ v, sep a = false :=
  mem_wordsFrom (by simp) hv

theorem flatten_emit (w : List α) : (emit w).flatten = w := by
  cases w <;> simp [emit]

theorem flatten_wordsFrom {l w : List α} :
    (wordsFrom sep w l).flatten = w ++ l.filter fun a => !sep a := by
  induction l generalizing w with
  | nil => simp [wordsFrom, flatten_emit]
  | cons a l ih =>
      by_cases ha : sep a = true
      · simp [wordsFrom, ha, ih, flatten_emit]
      · simp [wordsFrom, ha, ih]

/-- The words of a text together are its non-separators. -/
theorem flatten_words (l : List α) : (words sep l).flatten = l.filter fun a => !sep a :=
  flatten_wordsFrom

theorem exists_wordsFrom_append (l m w : List α) :
    ∃ rest, wordsFrom sep w (l ++ m) = (wordsFrom sep w l).dropLast ++ rest ∧
      (wordsFrom sep w l ≠ [] → rest ≠ []) := by
  induction l generalizing w with
  | nil =>
      refine ⟨wordsFrom sep w m, ?_, ?_⟩
      · cases w <;> rfl
      · intro hne hnil
        refine hne ?_
        have hflat := congrArg List.flatten hnil
        rw [flatten_wordsFrom, List.flatten_nil] at hflat
        rw [(List.append_eq_nil_iff.mp hflat).1]
        rfl
  | cons a l ih =>
      by_cases ha : sep a = true
      · obtain ⟨rest, hrest, hne⟩ := ih []
        simp only [List.cons_append, wordsFrom, ha, if_true, hrest]
        by_cases hnil : wordsFrom sep [] l = []
        · refine ⟨emit w ++ rest, ?_, ?_⟩
          · rw [hnil]
            cases w <;> rfl
          · intro hw
            rw [hnil, List.append_nil] at hw
            exact List.append_ne_nil_of_left_ne_nil hw rest
        · refine ⟨rest, ?_, fun _ => hne hnil⟩
          rw [List.dropLast_append_of_ne_nil hnil, List.append_assoc]
      · simpa only [List.cons_append, wordsFrom, ha, Bool.false_eq_true, if_false] using ih (w ++ [a])

/-- **Words of a text that goes on** are the same but for the last, which may grow. -/
theorem exists_words_append (sep : α → Bool) (l m : List α) :
    ∃ rest, words sep (l ++ m) = (words sep l).dropLast ++ rest ∧ (words sep l ≠ [] → rest ≠ []) :=
  exists_wordsFrom_append l m []

theorem words_dropWhile (l : List α) : words sep (l.dropWhile sep) = words sep l := by
  induction l with
  | nil => rfl
  | cons a l ih =>
      by_cases ha : sep a = true
      · simp only [List.dropWhile_cons, ha, if_true, ih, words_cons_sep ha]
      · simp [ha]

theorem words_append_seps {l m : List α} (hm : ∀ a ∈ m, sep a = true) :
    words sep (l ++ m) = words sep l := by
  induction m generalizing l with
  | nil => simp
  | cons s m ih =>
      have hs := hm s List.mem_cons_self
      have hnil := ih (l := []) fun a ha => hm a (List.mem_cons_of_mem s ha)
      rw [words_append_sep hs]
      simpa using hnil

/-- **Trimming does not change the words.** -/
theorem words_trim (l : List α) : words sep (trim sep l) = words sep l := by
  let d := l.dropWhile sep
  have hd : d = trim sep l ++ (d.reverse.takeWhile sep).reverse := by
    have h := List.takeWhile_append_dropWhile (p := sep) (l := d.reverse)
    have hrev := congrArg List.reverse h
    rw [List.reverse_append, List.reverse_reverse] at hrev
    exact hrev.symm
  have hseps : ∀ a ∈ (d.reverse.takeWhile sep).reverse, sep a = true := by
    intro a ha
    exact List.all_eq_true.mp List.all_takeWhile a (List.mem_reverse.mp ha)
  calc words sep (trim sep l) = words sep (trim sep l ++ (d.reverse.takeWhile sep).reverse) :=
        (words_append_seps hseps).symm
    _ = words sep d := by rw [← hd]
    _ = words sep l := words_dropWhile l

theorem wordsFrom_filter {p : α → Bool} {l : List α} (hp : ∀ a ∈ l, sep a = true → p a = true)
    (w : List α) : wordsFrom sep (w.filter p) (l.filter p) =
      (wordsFrom sep w l).flatMap fun v => emit (v.filter p) := by
  have hemit : ∀ v : List α, (emit v).flatMap (fun v => emit (v.filter p)) = emit (v.filter p) := by
    intro v
    cases v <;> simp [emit]
  induction l generalizing w with
  | nil => simp [wordsFrom, hemit]
  | cons a l ih =>
      have hl := ih fun b hb => hp b (List.mem_cons_of_mem a hb)
      by_cases ha : sep a = true
      · have hkept := hp a List.mem_cons_self ha
        have hrest := hl []
        rw [List.filter_nil] at hrest
        simp [wordsFrom, ha, hkept, hrest, hemit]
      · have hword := hl (w ++ [a])
        by_cases hkept : p a = true
        · simpa [wordsFrom, ha, hkept] using hword
        · simpa [wordsFrom, ha, hkept] using hword

/-- **Leaving out symbols of a text**, but no separators, leaves them out of the words. Words of which
nothing is left are gone. -/
theorem words_filter {p : α → Bool} {l : List α} (hp : ∀ a ∈ l, sep a = true → p a = true) :
    words sep (l.filter p) = (words sep l).flatMap fun w => emit (w.filter p) :=
  wordsFrom_filter hp []

theorem wordsFrom_append_of_forall {l : List α} (h : ∀ a ∈ l, sep a = false) (m w : List α) :
    wordsFrom sep w (l ++ m) = wordsFrom sep (w ++ l) m := by
  induction l generalizing w with
  | nil => simp
  | cons a l ih =>
      have ha := h a List.mem_cons_self
      have hl := ih fun b hb => h b (List.mem_cons_of_mem a hb)
      simp [wordsFrom, ha, hl]

/-- `f` writes a separator as a separator, and another symbol without separators. -/
structure Encodes {β : Type} (sep : α → Bool) (sep' : β → Bool) (f : α → List β) : Prop where
  separator : ∀ a, sep a = true → ∃ b, f a = [b] ∧ sep' b = true
  symbol : ∀ a, sep a = false → f a ≠ [] ∧ ∀ b ∈ f a, sep' b = false

section Encoding
variable {β : Type} {sep' : β → Bool} {f : α → List β}

theorem Encodes.ne_nil (h : Encodes sep sep' f) (a : α) : f a ≠ [] := by
  cases ha : sep a with
  | true =>
      obtain ⟨b, hb, -⟩ := h.separator a ha
      simp [hb]
  | false => exact (h.symbol a ha).1

theorem Encodes.emit_flatMap (h : Encodes sep sep' f) (w : List α) :
    emit (w.flatMap f) = (emit w).map (List.flatMap f) := by
  cases w with
  | nil => rfl
  | cons a w =>
      have hne : (a :: w).flatMap f ≠ [] := by simp [h.ne_nil a]
      rw [emit_of_ne_nil hne]
      rfl

theorem Encodes.wordsFrom_flatMap (h : Encodes sep sep' f) (l w : List α) :
    wordsFrom sep' (w.flatMap f) (l.flatMap f) = (wordsFrom sep w l).map (List.flatMap f) := by
  induction l generalizing w with
  | nil => simp [wordsFrom, h.emit_flatMap]
  | cons a l ih =>
      rw [List.flatMap_cons]
      cases ha : sep a with
      | true =>
          obtain ⟨b, hb, hsep⟩ := h.separator a ha
          have hrest := ih []
          rw [List.flatMap_nil] at hrest
          simp [wordsFrom, hb, hsep, ha, h.emit_flatMap, hrest]
      | false =>
          have hword := ih (w ++ [a])
          rw [List.flatMap_append, List.flatMap_singleton] at hword
          rw [wordsFrom_append_of_forall (h.symbol a ha).2, hword]
          simp [wordsFrom, ha]

/-- **The words of an encoded text are its words, encoded.** -/
theorem words_flatMap (h : Encodes sep sep' f) (l : List α) :
    words sep' (l.flatMap f) = (words sep l).map (List.flatMap f) := h.wordsFrom_flatMap l []

end Encoding

/-- A text that begins with a non-separator still does when it is trimmed. -/
theorem trim_cons {a : α} (ha : sep a = false) (l : List α) : ∃ m, trim sep (a :: l) = a :: m := by
  have hfront : (a :: l).dropWhile sep = a :: l := by simp [ha]
  simp only [trim, hfront, List.reverse_cons, List.dropWhile_append]
  split
  · exact ⟨[], by simp [ha]⟩
  · exact ⟨_, by rw [List.reverse_append]; rfl⟩

end Words

/-! ## Maximal runs -/

section Runs
variable (sep : α → Bool)

/-- `Runs sep l ws`: the maximal runs of non-separators in `l` are `ws`. A run ends where the text
ends or at a separator. -/
inductive Runs : List α → List (List α) → Prop
  | nil : Runs [] []
  | skip {a : α} {l : List α} {ws : List (List α)} (ha : sep a = true) (hl : Runs l ws) :
      Runs (a :: l) ws
  | run {w l : List α} {ws : List (List α)} (hne : w ≠ []) (hw : ∀ a ∈ w, sep a = false)
      (hend : ∀ a ∈ l.head?, sep a = true) (hl : Runs l ws) : Runs (w ++ l) (w :: ws)

variable {sep}

theorem words_of_runs {l : List α} {ws : List (List α)} (h : Runs sep l ws) : words sep l = ws := by
  induction h with
  | nil => rfl
  | skip ha _ ih => rw [words_cons_sep ha, ih]
  | @run w l ws hne hw hend _ ih =>
      have hword : words sep w = [w] := (words_of_forall hw).trans (emit_of_ne_nil hne)
      cases l with
      | nil => rw [List.append_nil, hword, ← ih, words_nil]
      | cons s l =>
          have hs : sep s = true := hend s rfl
          rw [words_append_sep hs, hword, ← ih, words_cons_sep hs]
          rfl

/-- Every text is cut into runs. The induction is on its length: a run is taken off whole. -/
theorem exists_runs (l : List α) : ∃ ws, Runs sep l ws := by
  induction hn : l.length using Nat.strongRecOn generalizing l with
  | ind n ih =>
    cases l with
    | nil => exact ⟨[], .nil⟩
    | cons a l =>
        by_cases ha : sep a = true
        · obtain ⟨ws, hws⟩ := ih l.length (by simp [← hn]) l rfl
          exact ⟨ws, .skip ha hws⟩
        · let word := (a :: l).takeWhile fun b => !sep b
          let rest := (a :: l).dropWhile fun b => !sep b
          have hcut : word ++ rest = a :: l := List.takeWhile_append_dropWhile
          have hne : word ≠ [] := by simp [word, ha]
          have hword : ∀ b ∈ word, sep b = false := by
            intro b hb
            simpa using List.all_eq_true.mp List.all_takeWhile b hb
          have hend : ∀ b ∈ rest.head?, sep b = true := by
            intro b hb
            have hhead := List.head?_dropWhile_not (fun b => !sep b) (a :: l)
            rw [Option.mem_def.mp hb] at hhead
            simpa using hhead
          have hlen : rest.length < n := by
            have := congrArg List.length hcut
            have hpos := List.length_pos_of_ne_nil hne
            rw [List.length_append, hn] at this
            omega
          obtain ⟨ws, hws⟩ := ih rest.length hlen rest rfl
          exact ⟨word :: ws, hcut ▸ .run hne hword hend hws⟩

/-- **The words are the maximal runs**, and nothing else is. -/
theorem runs_iff {l : List α} {ws : List (List α)} : Runs sep l ws ↔ words sep l = ws := by
  constructor
  · exact words_of_runs
  · rintro rfl
    obtain ⟨ws, hws⟩ : ∃ ws, Runs sep l ws := exists_runs l
    rwa [words_of_runs hws]

end Runs

/-! ## Lines -/

section Lines
variable [DecidableEq α] (eol : α)

/-- The lines of a text, the first of which begins with `w`. -/
def linesFrom (w : List α) : List α → List (List α)
  | [] => emit w
  | a :: l => if a = eol then w :: linesFrom [] l else linesFrom (w ++ [a]) l

/-- What repeated reading up to the next end-of-line mark gives. -/
def lines (l : List α) : List (List α) := linesFrom eol [] l

variable {eol}

@[simp] theorem lines_nil : lines eol ([] : List α) = [] := rfl

theorem flatMap_words_linesFrom {sep : α → Bool} (heol : sep eol = true) (l w : List α) :
    (linesFrom eol w l).flatMap (words sep) = words sep (w ++ l) := by
  induction l generalizing w with
  | nil => cases w <;> simp [linesFrom, emit]
  | cons a l ih =>
      by_cases ha : a = eol
      · subst ha
        simp [linesFrom, ih, words_append_sep heol]
      · simp [linesFrom, ha, ih]

/-- The words of a text are those of its lines, if a line end ends a word. -/
theorem flatMap_words_lines {sep : α → Bool} (heol : sep eol = true) (l : List α) :
    (lines eol l).flatMap (words sep) = words sep l := flatMap_words_linesFrom heol l []

/-! ## Complete lines -/

variable (eol)

/-- The lines of a text that are ended by a mark, the first of which begins with `w`, and what
stands after the last mark. -/
def cutFrom (w : List α) : List α → List (List α) × List α
  | [] => ([], w)
  | a :: l =>
      if a = eol then (w :: (cutFrom [] l).1, (cutFrom [] l).2) else cutFrom (w ++ [a]) l

/-- The lines that are ended by a mark. -/
def terminated (l : List α) : List (List α) := (cutFrom eol [] l).1

/-- What stands after the last mark. -/
def unterminated (l : List α) : List α := (cutFrom eol [] l).2

variable {eol}

theorem linesFrom_eq (l w : List α) :
    linesFrom eol w l = (cutFrom eol w l).1 ++ emit (cutFrom eol w l).2 := by
  induction l generalizing w with
  | nil => rfl
  | cons a l ih =>
      by_cases ha : a = eol
      · simp [linesFrom, cutFrom, ha, ih]
      · simp [linesFrom, cutFrom, ha, ih]

/-- **The lines of a text are the complete ones and what is left**, unless nothing is. -/
theorem lines_eq (l : List α) : lines eol l = terminated eol l ++ emit (unterminated eol l) :=
  linesFrom_eq l []

theorem cutFrom_of_notMem {l : List α} (hl : eol ∉ l) (w : List α) :
    cutFrom eol w l = ([], w ++ l) := by
  induction l generalizing w with
  | nil => simp [cutFrom]
  | cons a l ih =>
      simp only [List.mem_cons, not_or] at hl
      have ha : ¬ a = eol := fun h => hl.1 h.symm
      simp [cutFrom, ha, ih hl.2]

/-- **A text can be cut in pieces**: what one piece leaves over begins the next. -/
theorem cutFrom_append (l m w : List α) :
    cutFrom eol w (l ++ m) =
      ((cutFrom eol w l).1 ++ (cutFrom eol (cutFrom eol w l).2 m).1,
        (cutFrom eol (cutFrom eol w l).2 m).2) := by
  induction l generalizing w with
  | nil => rfl
  | cons a l ih =>
      by_cases ha : a = eol
      · simp [cutFrom, ha, ih]
      · simp [cutFrom, ha, ih]

theorem cutFrom_append_eol {l : List α} (hl : eol ∉ l) (w m : List α) :
    cutFrom eol w (l ++ eol :: m) = ((w ++ l) :: terminated eol m, unterminated eol m) := by
  rw [cutFrom_append, cutFrom_of_notMem hl]
  simp [cutFrom, terminated, unterminated]

/-- **The first end-of-line mark ends the first line.** -/
theorem lines_append_eol {l : List α} (hl : eol ∉ l) (m : List α) :
    lines eol (l ++ eol :: m) = l :: lines eol m := by
  rw [lines_eq, lines_eq, terminated, unterminated, cutFrom_append_eol hl]
  rfl

/-- A text of complete lines is cut into just these. -/
theorem lines_flatMap {ls : List (List α)} (h : ∀ l ∈ ls, eol ∉ l) (m : List α) :
    lines eol ((ls.flatMap fun l => l ++ [eol]) ++ m) = ls ++ lines eol m := by
  induction ls with
  | nil => rfl
  | cons l ls ih =>
      have hl := h l List.mem_cons_self
      have hls := ih fun l' hl' => h l' (List.mem_cons_of_mem l hl')
      simp only [List.flatMap_cons, List.append_assoc, List.cons_append, List.nil_append]
      rw [lines_append_eol hl, hls]

theorem cutFrom_flatMap {ls : List (List α)} (h : ∀ l ∈ ls, eol ∉ l) :
    cutFrom eol [] (ls.flatMap fun l => l ++ [eol]) = (ls, []) := by
  induction ls with
  | nil => rfl
  | cons l ls ih =>
      have hls := ih fun l' hl' => h l' (List.mem_cons_of_mem l hl')
      rw [List.flatMap_cons, List.append_assoc, List.singleton_append,
        cutFrom_append_eol (h l List.mem_cons_self), terminated, unterminated, hls]
      rfl

/-- What is left over behind complete lines is no line. -/
theorem terminated_flatMap_append {ls : List (List α)} (h : ∀ l ∈ ls, eol ∉ l) {m : List α}
    (hm : eol ∉ m) : terminated eol ((ls.flatMap fun l => l ++ [eol]) ++ m) = ls := by
  rw [terminated, cutFrom_append, cutFrom_flatMap h, cutFrom_of_notMem hm]
  exact List.append_nil ls

theorem append_cutFrom (l w : List α) :
    ((cutFrom eol w l).1.flatMap fun l => l ++ [eol]) ++ (cutFrom eol w l).2 = w ++ l := by
  induction l generalizing w with
  | nil => simp [cutFrom]
  | cons a l ih =>
      by_cases ha : a = eol
      · simp [cutFrom, ha, ih]
      · simp [cutFrom, ha, ih]

/-- Nothing is lost by cutting. -/
theorem append_unterminated (eol : α) (l : List α) :
    ((terminated eol l).flatMap fun l => l ++ [eol]) ++ unterminated eol l = l := append_cutFrom l []

theorem notMem_cutFrom {l w : List α} (hw : eol ∉ w) :
    (∀ v ∈ (cutFrom eol w l).1, eol ∉ v) ∧ eol ∉ (cutFrom eol w l).2 := by
  induction l generalizing w with
  | nil => exact ⟨by simp [cutFrom], hw⟩
  | cons a l ih =>
      by_cases ha : a = eol
      · obtain ⟨hlines, hrest⟩ := ih (w := []) (by simp)
        simp only [cutFrom, ha, if_true, List.mem_cons]
        refine ⟨?_, hrest⟩
        rintro v (rfl | hv)
        · exact hw
        · exact hlines v hv
      · simp only [cutFrom, ha, if_false]
        refine ih ?_
        simp only [List.mem_append, List.mem_singleton, not_or]
        exact ⟨hw, fun h => ha h.symm⟩

theorem terminated_of_notMem {l : List α} (hl : eol ∉ l) : terminated eol l = [] :=
  congrArg Prod.fst (cutFrom_of_notMem hl [])

theorem unterminated_of_notMem {l : List α} (hl : eol ∉ l) : unterminated eol l = l :=
  congrArg Prod.snd (cutFrom_of_notMem hl [])

/-- The first mark ends the first complete line. -/
theorem terminated_append_eol {l : List α} (hl : eol ∉ l) (m : List α) :
    terminated eol (l ++ eol :: m) = l :: terminated eol m := by
  rw [terminated, cutFrom_append_eol hl]
  rfl

theorem unterminated_append_eol {l : List α} (hl : eol ∉ l) (m : List α) :
    unterminated eol (l ++ eol :: m) = unterminated eol m := by
  rw [unterminated, cutFrom_append_eol hl]

/-- **The complete lines of a text that comes in two pieces.** -/
theorem terminated_append (l m : List α) :
    terminated eol (l ++ m) = terminated eol l ++ terminated eol (unterminated eol l ++ m) := by
  have hrest : eol ∉ unterminated eol l := (notMem_cutFrom (by simp)).2
  have hpiece := @cutFrom_append α _ eol (unterminated eol l) m []
  rw [cutFrom_of_notMem hrest] at hpiece
  rw [terminated, terminated, terminated, cutFrom_append, hpiece]
  rfl

theorem length_cutFrom (l w : List α) : (cutFrom eol w l).1.length = l.count eol := by
  induction l generalizing w with
  | nil => rfl
  | cons a l ih =>
      by_cases ha : a = eol
      · simp [cutFrom, ha, ih]
      · simp [cutFrom, ha, ih]

/-- There are as many complete lines as marks. -/
theorem length_terminated (l : List α) : (terminated eol l).length = l.count eol :=
  length_cutFrom l []

/-- A text that is cut without a rest goes on with a line that begins with `w`, or `w` is empty. -/
theorem exists_line_of_cutFrom {l w : List α} (hw : w ≠ []) (h : (cutFrom eol w l).2 = []) :
    ∃ m ls, (cutFrom eol w l).1 = (w ++ m) :: ls := by
  by_cases hl : eol ∈ l
  · obtain ⟨m, rest, rfl, hm⟩ := List.eq_append_cons_of_mem hl
    exact ⟨m, _, by rw [cutFrom_append_eol hm]⟩
  · rw [cutFrom_of_notMem hl] at h
    exact absurd (List.append_eq_nil_iff.mp h).1 hw

/-- A line that is appended to a text goes on with what the text is left with. -/
theorem lines_append_line {l : List α} (hl : eol ∉ l) (t m : List α) :
    lines eol (t ++ (l ++ eol :: m)) =
      terminated eol t ++ (unterminated eol t ++ l) :: lines eol m := by
  rw [lines_eq, lines_eq m, terminated, unterminated, cutFrom_append, cutFrom_append_eol hl,
    List.append_assoc]
  rfl

/-- Nothing is left of a text that is empty or ends with a mark, and of no other. -/
theorem unterminated_eq_nil_iff {l : List α} :
    unterminated eol l = [] ↔ ∀ a ∈ l.getLast?, a = eol := by
  rcases List.eq_nil_or_concat l with rfl | ⟨l, a, rfl⟩
  · simp [unterminated, cutFrom]
  · rw [List.concat_eq_append, unterminated, cutFrom_append]
    by_cases ha : a = eol <;> simp [cutFrom, ha]

end Lines
end Splitting
