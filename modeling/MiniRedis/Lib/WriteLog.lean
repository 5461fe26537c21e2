import MiniRedis.Lib.RecencyList
import Mathlib.Data.List.Induction

/-!
# Logs of writes, replayed into a bounded recency list

A log is a list of writes, oldest first. Replaying it applies each write in turn to a recency list
with a bound, which drops the oldest entry whenever a write exceeds it.

## Main results

* `lookup_replay` — what a replay leaves under a key is what the last write to the key put there.
* `replay_snoc_of_fits` — as long as the bound is not exceeded, it is exactly that.
* `entries_replay_append` — entries that the replay started with, and the log does not mention,
  stand behind the others, so they do not influence which of the others are dropped.
* `sorted_keys_replay` — after a replay from nothing the keys stand in the order of their last put.
* `oldest?_replay_iff` — so the key that is dropped next is the one whose last put lies furthest back.
-/

/-- A write to a map. -/
inductive Write (κ β : Type)
  | put (k : κ) (b : β)
  | erase (k : κ)

namespace Write
variable {κ β : Type}

def key : Write κ β → κ
  | put k _ => k
  | erase k => k

def isPut : Write κ β → Bool
  | put _ _ => true
  | erase _ => false

variable [DecidableEq κ]

/-- The write, on a list with bound `cap`. -/
def apply (cap : ℕ) : Write κ β → RecencyList κ β → RecencyList κ β
  | put k b, xs => RecencyList.put cap k b xs
  | erase k, xs => xs.erase k

/-- The write, on a list without a bound. -/
def applyFree : Write κ β → RecencyList κ β → RecencyList κ β
  | put k b, xs => xs.insert k b
  | erase k, xs => xs.erase k

theorem card_apply_le {cap : ℕ} {xs : RecencyList κ β} (hcard : xs.card ≤ cap) (w : Write κ β) :
    (w.apply cap xs).card ≤ cap := by
  cases w with
  | put k b => exact RecencyList.card_put_le cap k b hcard
  | erase k => exact (AList.card_erase_le xs k).trans hcard

theorem apply_eq_applyFree {cap : ℕ} {xs : RecencyList κ β} {w : Write κ β}
    (h : (w.applyFree xs).card ≤ cap) : w.apply cap xs = w.applyFree xs := by
  cases w with
  | put k b => exact RecencyList.bound_of_le h
  | erase k => rfl

/-- A write leaves under a key what it puts there or what was there before. -/
theorem lookup_apply {cap : ℕ} {xs : RecencyList κ β} {w : Write κ β} {k : κ} {b : β}
    (h : (w.apply cap xs).lookup k = some b) :
    w = put k b ∨ w.key ≠ k ∧ xs.lookup k = some b := by
  cases w with
  | put j b' =>
      by_cases hj : k = j
      · subst hj
        have := RecencyList.lookup_of_lookup_bound h
        rw [AList.lookup_insert] at this
        cases this
        exact .inl rfl
      · exact .inr ⟨fun heq => hj heq.symm, RecencyList.lookup_put_of_ne hj h⟩
  | erase j =>
      obtain ⟨hj, hk⟩ := AList.lookup_of_lookup_erase h
      exact .inr ⟨fun heq => hj heq.symm, hk⟩

/-- A write to another key leaves the entry alone when there is no bound. -/
theorem lookup_applyFree_of_ne {xs : RecencyList κ β} {w : Write κ β} {k : κ} (h : w.key ≠ k) :
    (w.applyFree xs).lookup k = xs.lookup k := by
  cases w with
  | put j b => exact AList.lookup_insert_ne h.symm
  | erase j => exact AList.lookup_erase_ne h.symm

theorem lookup_applyFree_congr {xs ys : RecencyList κ β} (h : ∀ k, xs.lookup k = ys.lookup k)
    (w : Write κ β) (k : κ) : (w.applyFree xs).lookup k = (w.applyFree ys).lookup k := by
  cases w with
  | put j b => exact RecencyList.lookup_insert_congr h j b k
  | erase j => exact RecencyList.lookup_erase_congr h j k

end Write

namespace WriteLog
variable {κ β : Type} [DecidableEq κ]

/-- Apply the writes of a log in turn. -/
def replay (cap : ℕ) (ws : List (Write κ β)) (xs : RecencyList κ β) : RecencyList κ β :=
  ws.foldl (fun xs w => w.apply cap xs) xs

/-- What a log amounts to if there is no bound. -/
def contents (ws : List (Write κ β)) : RecencyList κ β :=
  ws.foldl (fun xs w => w.applyFree xs) ∅

/-- The last write to a key. -/
def lastWrite (k : κ) (ws : List (Write κ β)) : Option (Write κ β) :=
  (ws.filter fun w => w.key = k).getLast?

/-- What the last write to a key put there. -/
def standing (k : κ) (ws : List (Write κ β)) : Option β :=
  match lastWrite k ws with
  | some (.put _ b) => some b
  | _ => none

/-- The position of the last put to a key, counted from one; zero if there is none. -/
def lastPut (k : κ) (ws : List (Write κ β)) : ℕ :=
  ws.length - ws.reverse.findIdx fun w => w.isPut && decide (w.key = k)

section Basic
variable (cap : ℕ) (w : Write κ β) (ws ws' : List (Write κ β)) (xs : RecencyList κ β) (k : κ)

@[simp] theorem replay_nil : replay cap [] xs = xs := rfl
@[simp] theorem replay_cons : replay cap (w :: ws) xs = replay cap ws (w.apply cap xs) := rfl
@[simp] theorem contents_nil : contents ([] : List (Write κ β)) = ∅ := rfl

theorem replay_append : replay cap (ws ++ ws') xs = replay cap ws' (replay cap ws xs) :=
  List.foldl_append

theorem replay_snoc : replay cap (ws ++ [w]) xs = w.apply cap (replay cap ws xs) :=
  List.foldl_append

theorem contents_snoc : contents (ws ++ [w]) = w.applyFree (contents ws) := List.foldl_append

end Basic

section LastWrite
variable {w : Write κ β} {k : κ} (ws : List (Write κ β))

theorem lastWrite_snoc_self (h : w.key = k) : lastWrite k (ws ++ [w]) = some w := by
  simp [lastWrite, List.filter_append, h]

theorem lastWrite_snoc_of_ne (h : w.key ≠ k) : lastWrite k (ws ++ [w]) = lastWrite k ws := by
  simp [lastWrite, List.filter_append, h]

/-- The only write to a key is the last one. -/
theorem lastWrite_of_forall (hw : w ∈ ws) (hk : w.key = k) (h : ∀ v ∈ ws, v.key = k → v = w) :
    lastWrite k ws = some w := by
  have hmem : w ∈ ws.filter fun v => v.key = k := List.mem_filter.mpr ⟨hw, decide_eq_true hk⟩
  have hne : (ws.filter fun v => v.key = k) ≠ [] := List.ne_nil_of_mem hmem
  rw [lastWrite, List.getLast?_eq_some_getLast hne]
  have hlast := List.mem_filter.mp (List.getLast_mem hne)
  rw [h _ hlast.1 (of_decide_eq_true hlast.2)]

/-- Only the writes to the key matter, and their order. -/
theorem standing_congr {ws ws' : List (Write κ β)}
    (h : ws.filter (fun w => w.key = k) = ws'.filter fun w => w.key = k) :
    standing k ws = standing k ws' := by
  simp only [standing, lastWrite, h]

/-- A write can be moved before writes that are equal to it or to other keys. -/
theorem filter_key_swap {w : Write κ β} {pre : List (Write κ β)}
    (h : ∀ v ∈ pre, v.key = w.key → v = w) (k : κ) :
    (pre ++ [w]).filter (fun v => v.key = k) = ([w] ++ pre).filter fun v => v.key = k := by
  by_cases hk : w.key = k
  · have hsame : pre.filter (fun v => v.key = k) =
        List.replicate (pre.filter fun v => v.key = k).length w := by
      refine List.eq_replicate_of_mem ?_
      intro v hv
      obtain ⟨hmem, hkey⟩ := List.mem_filter.mp hv
      exact h v hmem ((of_decide_eq_true hkey).trans hk.symm)
    rw [List.filter_append, List.filter_append, hsame]
    simp [hk, List.replicate_succ', ← List.replicate_succ]
  · simp [hk]

theorem lookup_contents (k : κ) (ws : List (Write κ β)) :
    (contents ws).lookup k = standing k ws := by
  induction ws using List.reverseRecOn with
  | nil => rfl
  | append_singleton ws w ih =>
      rw [contents_snoc]
      by_cases hk : w.key = k
      · rw [standing, lastWrite_snoc_self ws hk]
        subst hk
        cases w with
        | put j b => exact AList.lookup_insert _
        | erase j => exact AList.lookup_erase _ _
      · rw [Write.lookup_applyFree_of_ne hk, ih, standing, standing, lastWrite_snoc_of_ne ws hk]

end LastWrite

section Replay
variable {cap : ℕ} {ws : List (Write κ β)} {xs ys : RecencyList κ β}

theorem card_replay_le (hcard : xs.card ≤ cap) (ws : List (Write κ β)) :
    (replay cap ws xs).card ≤ cap := by
  induction ws generalizing xs with
  | nil => exact hcard
  | cons w ws ih => exact ih (Write.card_apply_le hcard w)

/-- **What a replay leaves under a key** is what the last write to the key put there, or what was
there before if the log does not mention the key. -/
theorem lookup_replay {k : κ} {b : β} (h : (replay cap ws xs).lookup k = some b) :
    lastWrite k ws = some (.put k b) ∨ lastWrite k ws = none ∧ xs.lookup k = some b := by
  induction ws using List.reverseRecOn with
  | nil => exact .inr ⟨rfl, h⟩
  | append_singleton ws w ih =>
      rw [replay_snoc] at h
      rcases Write.lookup_apply h with rfl | ⟨hk, hprev⟩
      · exact .inl (lastWrite_snoc_self ws rfl)
      · rw [lastWrite_snoc_of_ne ws hk]
        exact ih hprev

/-- As long as the bound is not exceeded the replay does what the log says. -/
theorem replay_snoc_of_fits {w : Write κ β} (h : replay cap ws ∅ = contents ws)
    (hfits : (contents (ws ++ [w])).card ≤ cap) :
    replay cap (ws ++ [w]) ∅ = contents (ws ++ [w]) := by
  rw [contents_snoc] at hfits ⊢
  rw [replay_snoc, h, Write.apply_eq_applyFree hfits]

/-! ## Entries the log does not mention -/

theorem kerase_append {xs us : List (Sigma fun _ : κ => β)} (h : (xs ++ us).NodupKeys) (k : κ) :
    (xs ++ us).kerase k = xs.kerase k ++ us.kerase k := by
  by_cases hk : k ∈ xs.keys
  · have hus : k ∉ us.keys := by
      intro hmem
      rw [List.NodupKeys, List.keys_append, List.nodup_append] at h
      exact h.2.2 k hk k hmem rfl
    rw [List.kerase_append_left hk, List.kerase_of_notMem_keys hus]
  · rw [List.kerase_append_right hk, List.kerase_of_notMem_keys hk]

/-- A write keeps the entries behind the others, except the one of its own key. -/
theorem entries_apply_append {us : List (Sigma fun _ : κ => β)} (hcard : ys.card ≤ cap)
    (h : ys.entries = xs.entries ++ us) (w : Write κ β) :
    ∃ us', (w.apply cap ys).entries = (w.apply cap xs).entries ++ us' ∧
      ∀ x ∈ us', x ∈ us ∧ x.1 ≠ w.key := by
  have hmem : ∀ x ∈ us.kerase w.key, x ∈ us ∧ x.1 ≠ w.key := by
    intro x hx
    have hus : us.NodupKeys := (h ▸ ys.nodupKeys).sublist (List.sublist_append_right _ _)
    refine ⟨(List.kerase_sublist w.key us).subset hx, ?_⟩
    intro hkey
    have hin := List.mem_keys_of_mem hx
    rw [hkey] at hin
    exact List.notMem_keys_kerase w.key hus hin
  have herase : ys.entries.kerase w.key = xs.entries.kerase w.key ++ us.kerase w.key := by
    rw [h, kerase_append (h ▸ ys.nodupKeys)]
  cases w with
  | erase k => exact ⟨us.kerase k, herase, hmem⟩
  | put k b =>
      have hins : (ys.insert k b).entries = (xs.insert k b).entries ++ us.kerase k := by
        rw [AList.entries_insert, AList.entries_insert]
        exact congrArg (List.cons _) herase
      have hle := AList.card_insert_le ys k b
      obtain ⟨us', hus', hsub⟩ :=
        RecencyList.entries_bound_append (hle.trans (Nat.succ_le_succ hcard)) hins
      exact ⟨us', hus', fun x hx => hmem x (hsub.subset hx)⟩

/-- **Entries that the log does not mention stay behind the others.** -/
theorem entries_replay_append {us : List (Sigma fun _ : κ => β)} (hcard : ys.card ≤ cap)
    (h : ys.entries = xs.entries ++ us) (ws : List (Write κ β)) :
    ∃ us', (replay cap ws ys).entries = (replay cap ws xs).entries ++ us' ∧
      ∀ x ∈ us', x ∈ us ∧ ∀ w ∈ ws, x.1 ≠ w.key := by
  induction ws generalizing xs ys us with
  | nil => exact ⟨us, h, fun x hx => ⟨hx, by simp⟩⟩
  | cons w ws ih =>
      obtain ⟨us₁, h₁, hmem₁⟩ := entries_apply_append hcard h w
      obtain ⟨us₂, h₂, hmem₂⟩ := ih (Write.card_apply_le hcard w) h₁
      refine ⟨us₂, h₂, ?_⟩
      intro x hx
      obtain ⟨hx₁, hws⟩ := hmem₂ x hx
      obtain ⟨hx₀, hw⟩ := hmem₁ x hx₁
      exact ⟨hx₀, by simpa using ⟨hw, hws⟩⟩

/-- **A log that mentions every entry overrides them**, also in their order. -/
theorem replay_eq_of_mentioned (hcard : ys.card ≤ cap)
    (h : ∀ k b, ys.lookup k = some b → ∃ w ∈ ws, w.key = k) :
    replay cap ws ys = replay cap ws ∅ := by
  have hentries : ys.entries = (∅ : RecencyList κ β).entries ++ ys.entries := rfl
  obtain ⟨us, hus, hmem⟩ := entries_replay_append hcard hentries ws
  have hnil : us = [] := by
    refine List.eq_nil_iff_forall_not_mem.mpr ?_
    intro x hx
    obtain ⟨hx₀, hnot⟩ := hmem x hx
    obtain ⟨w, hw, hkey⟩ := h x.1 x.2 (AList.mem_lookup_iff.mpr hx₀)
    exact hnot w hw hkey.symm
  apply AList.ext
  rw [hus, hnil, List.append_nil]

end Replay

/-! ## The order of the keys -/

section Order
variable {w : Write κ β} {k : κ} (ws : List (Write κ β))

theorem lastPut_le : lastPut k ws ≤ ws.length := Nat.sub_le _ _

theorem lastPut_snoc_put (b : β) : lastPut k (ws ++ [.put k b]) = ws.length + 1 := by
  simp [lastPut, List.findIdx_cons, Write.isPut, Write.key]

theorem lastPut_snoc_of_not (h : w.isPut = false ∨ w.key ≠ k) :
    lastPut k (ws ++ [w]) = lastPut k ws := by
  have hp : (w.isPut && decide (w.key = k)) = false := by
    rcases h with h | h <;> simp [h]
  simp only [lastPut, List.reverse_append, List.reverse_singleton, List.singleton_append,
    List.findIdx_cons, hp, cond_false, List.length_append, List.length_singleton]
  omega

/-- **After a replay from nothing the keys stand in the order of their last put**, the latest one
first. -/
theorem sorted_keys_replay (cap : ℕ) (ws : List (Write κ β)) :
    (replay cap ws ∅).keys.Pairwise fun j k => lastPut k ws < lastPut j ws := by
  induction ws using List.reverseRecOn with
  | nil => exact List.Pairwise.nil
  | append_singleton ws w ih =>
      rw [replay_snoc]
      cases w with
      | erase k =>
          have hsame : ∀ j, lastPut j (ws ++ [.erase k]) = lastPut j ws :=
            fun j => lastPut_snoc_of_not ws (.inl rfl)
          simp only [hsame, Write.apply, AList.keys_erase]
          exact ih.sublist List.erase_sublist
      | put k b =>
          have hsorted : ((replay cap ws ∅).insert k b).keys.Pairwise
              fun i j => lastPut j (ws ++ [.put k b]) < lastPut i (ws ++ [.put k b]) := by
            rw [AList.keys_insert, List.pairwise_cons]
            have hother : ∀ j ∈ (replay cap ws ∅).keys.erase k,
                lastPut j (ws ++ [.put k b]) = lastPut j ws := by
              intro j hj
              refine lastPut_snoc_of_not ws (.inr ?_)
              rintro rfl
              exact List.Nodup.not_mem_erase (AList.keys_nodup _) hj
            constructor
            · intro j hj
              rw [hother j hj, lastPut_snoc_put]
              exact Nat.lt_succ_of_le (lastPut_le ws)
            · refine List.Pairwise.imp_of_mem ?_ (ih.sublist List.erase_sublist)
              intro i j hi hj hij
              rwa [hother i hi, hother j hj]
          refine hsorted.sublist ?_
          simp only [Write.apply, RecencyList.put, RecencyList.bound]
          split
          · rw [AList.keys_dropLast]
            exact List.dropLast_sublist _
          · exact List.Sublist.refl _

/-- The oldest key of a replay is the one whose last put lies furthest back. -/
theorem oldest?_replay_iff {cap : ℕ} {z : κ} (hz : z ∈ (replay cap ws ∅).keys) :
    RecencyList.oldest? (replay cap ws ∅) = some z ↔
      ∀ j ∈ (replay cap ws ∅).keys, j ≠ z → lastPut z ws < lastPut j ws := by
  have hsorted := sorted_keys_replay cap ws
  have hlast : ∀ y, RecencyList.oldest? (replay cap ws ∅) = some y →
      ∀ j ∈ (replay cap ws ∅).keys, j ≠ y → lastPut y ws < lastPut j ws := by
    intro y hy j hj hne
    have heq : (replay cap ws ∅).keys = (replay cap ws ∅).keys.dropLast ++ [y] :=
      (List.dropLast_append_getLast? y hy).symm
    rw [heq] at hsorted hj
    have hfront : j ∈ (replay cap ws ∅).keys.dropLast := by
      rcases List.mem_append.mp hj with hfront | hback
      · exact hfront
      · exact absurd (List.mem_singleton.mp hback) hne
    exact (List.pairwise_append.mp hsorted).2.2 j hfront y (by simp)
  constructor
  · exact hlast z
  · intro hmin
    cases hy : RecencyList.oldest? (replay cap ws ∅) with
    | none =>
        have hnil := List.getLast?_eq_none_iff.mp hy
        rw [hnil] at hz
        cases hz
    | some y =>
        by_contra hne
        have hyz : y ≠ z := fun heq => hne (congrArg some heq)
        have hlt := hmin y (RecencyList.oldest?_mem hy) hyz
        have hgt := hlast y hy z hz hyz.symm
        omega

end Order
end WriteLog
