import MiniRedis.Lib.WriteLog
import Mathlib.Data.List.Infix

/-!
# Which entries a replay keeps

A replay into a bounded list drops the oldest entry whenever a put finds the list full. What is left
in the end can be told from the log alone: under each key what the last put to it gave, unless the
writes after that put stand for as many other keys as the bound allows.

## Main results

* `lookup_replay_iff_leavesRoom` — an entry at the front outlives a log that does not mention it if
  and only if the log leaves it room.
* `lookup_replay_empty_iff` — what a replay from nothing leaves under a key.
* `lookup_replay_of_mentioned` — a key the log mentions does not depend on what was there before.
* `card_contents_cons_put` — a put that nothing overrides counts as one more key.
-/
namespace WriteLog
variable {κ β : Type} [DecidableEq κ]

/-- Apply the writes of a log in turn, without a bound. -/
def replayFree (ws : List (Write κ β)) (xs : RecencyList κ β) : RecencyList κ β :=
  ws.foldl (fun xs w => w.applyFree xs) xs

/-- However much of the log is replayed, it stands for less than `cap` keys. -/
def LeavesRoom (cap : ℕ) (ws : List (Write κ β)) : Prop :=
  ∀ vs, vs <+: ws → (contents vs).card < cap

instance (cap : ℕ) (ws : List (Write κ β)) : Decidable (LeavesRoom cap ws) :=
  decidable_of_iff (∀ vs ∈ ws.inits, (contents vs).card < cap)
    (by simp only [LeavesRoom, List.mem_inits])

section Room
variable {cap : ℕ} {ws : List (Write κ β)} {w : Write κ β} {k : κ} {b : β}
  {xs ys : RecencyList κ β}

theorem leavesRoom_nil : LeavesRoom cap ([] : List (Write κ β)) ↔ 0 < cap := by
  simp [LeavesRoom]

theorem leavesRoom_snoc :
    LeavesRoom cap (ws ++ [w]) ↔ LeavesRoom cap ws ∧ (contents (ws ++ [w])).card < cap := by
  constructor
  · intro h
    exact ⟨fun vs hvs => h vs (hvs.trans (List.prefix_append _ _)), h _ (List.prefix_refl _)⟩
  · intro h vs hvs
    rcases List.prefix_concat_iff.mp hvs with rfl | hvs
    · exact h.2
    · exact h.1 vs hvs

omit [DecidableEq κ] in
theorem card_of_entries {us : List (Sigma fun _ : κ => β)}
    (h : ys.entries = xs.entries ++ ⟨k, b⟩ :: us) : ys.card = xs.card + 1 + us.length := by
  rw [AList.card, h, List.length_append, List.length_cons]
  change xs.card + _ = _
  omega

/-- A write to another key acts on what stands before the entry and on what stands behind it. -/
theorem entries_applyFree {us : List (Sigma fun _ : κ => β)}
    (h : ys.entries = xs.entries ++ ⟨k, b⟩ :: us) (hw : w.key ≠ k) :
    (w.applyFree ys).entries = (w.applyFree xs).entries ++ ⟨k, b⟩ :: us.kerase w.key := by
  have herase : ys.entries.kerase w.key = xs.entries.kerase w.key ++ ⟨k, b⟩ :: us.kerase w.key := by
    rw [h, kerase_append (h ▸ ys.nodupKeys), List.kerase_cons_ne hw]
  cases w with
  | erase j => exact herase
  | put j c =>
      change (ys.insert j c).entries = (xs.insert j c).entries ++ _
      rw [AList.entries_insert, AList.entries_insert]
      exact congrArg (List.cons _) herase

/-- The bound drops an entry if and only if as many others as it allows stand before it. -/
theorem entries_bound {us : List (Sigma fun _ : κ => β)} (hcard : ys.card ≤ cap + 1)
    (h : ys.entries = xs.entries ++ ⟨k, b⟩ :: us) :
    (xs.card < cap ∧ ∃ us', (RecencyList.bound cap ys).entries = xs.entries ++ ⟨k, b⟩ :: us') ∨
      (cap ≤ xs.card ∧ (RecencyList.bound cap ys).lookup k = none) := by
  have hlen := card_of_entries h
  by_cases hfits : ys.card ≤ cap
  · refine .inl ⟨by omega, us, ?_⟩
    rw [RecencyList.bound_of_le hfits, h]
  · have hbound : (RecencyList.bound cap ys).entries = ys.entries.dropLast := by
      rw [RecencyList.bound_of_lt (by omega)]
      rfl
    by_cases hus : us = []
    · subst hus
      right
      refine ⟨by simp only [List.length_nil] at hlen; omega, ?_⟩
      have hnodup := ys.nodupKeys
      rw [h, List.NodupKeys, List.keys_append, List.nodup_append] at hnodup
      rw [AList.lookup_eq_none]
      change k ∉ (RecencyList.bound cap ys).entries.keys
      rw [hbound, h, List.dropLast_append_of_ne_nil (by simp), List.dropLast_singleton,
        List.append_nil]
      intro hmem
      exact hnodup.2.2 k hmem k (by simp) rfl
    · have hpos := List.length_pos_iff.mpr hus
      refine .inl ⟨by omega, us.dropLast, ?_⟩
      rw [hbound, h, List.dropLast_append_of_ne_nil (by simp), List.dropLast_cons_of_ne_nil hus]

theorem apply_eq_bound (hcard : xs.card ≤ cap) :
    w.apply cap xs = RecencyList.bound cap (w.applyFree xs) := by
  cases w with
  | put j c => rfl
  | erase j => exact (RecencyList.bound_of_le ((AList.card_erase_le xs j).trans hcard)).symm

theorem card_applyFree_le : (w.applyFree xs).card ≤ xs.card + 1 := by
  cases w with
  | put j c => exact AList.card_insert_le xs j c
  | erase j => exact (AList.card_erase_le xs j).trans (Nat.le_succ _)

/-- A log that does not mention a key does not bring it back. -/
theorem lookup_replay_of_unmentioned (hws : ∀ w ∈ ws, w.key ≠ k)
    (h : (replay cap ws xs).lookup k = some b) : xs.lookup k = some b := by
  rcases lookup_replay h with hlast | ⟨-, hprev⟩
  · have hmem := List.mem_filter.mp (List.mem_of_getLast? hlast)
    exact absurd rfl (hws _ hmem.1)
  · exact hprev

/-- One direction of `lookup_replay_iff_leavesRoom`, with what stands before the entry. -/
theorem entries_replay_of_leavesRoom {us : List (Sigma fun _ : κ => β)}
    (hys : ys.entries = ⟨k, b⟩ :: us) (hcard : ys.card ≤ cap) (hws : ∀ w ∈ ws, w.key ≠ k)
    (hroom : LeavesRoom cap ws) :
    ∃ us', (replay cap ws ys).entries = (contents ws).entries ++ ⟨k, b⟩ :: us' := by
  induction ws using List.reverseRecOn with
  | nil => exact ⟨us, hys⟩
  | append_singleton ws w ih =>
      obtain ⟨hprev, hlast⟩ := leavesRoom_snoc.mp hroom
      obtain ⟨us', hus⟩ := ih (fun v hv => hws v (List.mem_append_left _ hv)) hprev
      have hfull := card_replay_le hcard ws
      have hfree := entries_applyFree hus (hws w (by simp))
      rw [replay_snoc, apply_eq_bound hfull, contents_snoc]
      rw [contents_snoc] at hlast
      rcases entries_bound (card_applyFree_le.trans (Nat.succ_le_succ hfull)) hfree with h | h
      · exact h.2
      · omega

/-- **An entry at the front outlives a log** that does not mention it if and only if the log leaves
it room. -/
theorem lookup_replay_iff_leavesRoom {us : List (Sigma fun _ : κ => β)}
    (hys : ys.entries = ⟨k, b⟩ :: us) (hcard : ys.card ≤ cap) (hws : ∀ w ∈ ws, w.key ≠ k) :
    (replay cap ws ys).lookup k = some b ↔ LeavesRoom cap ws := by
  have hfound : ∀ {zs cs : RecencyList κ β} {us'}, zs.entries = cs.entries ++ ⟨k, b⟩ :: us' →
      zs.lookup k = some b := by
    intro zs cs us' h
    refine AList.mem_lookup_iff.mpr ?_
    rw [h]
    simp
  constructor
  · induction ws using List.reverseRecOn with
    | nil =>
        intro _
        have hlen := congrArg List.length hys
        change ys.card = _ at hlen
        rw [List.length_cons] at hlen
        exact leavesRoom_nil.mpr (by omega)
    | append_singleton ws w ih =>
        intro h
        have hws' : ∀ v ∈ ws, v.key ≠ k := fun v hv => hws v (List.mem_append_left _ hv)
        rw [replay_snoc] at h
        have hprev : (replay cap ws ys).lookup k = some b := by
          rcases Write.lookup_apply h with rfl | ⟨-, hprev⟩
          · exact absurd rfl (hws (.put k b) (by simp))
          · exact hprev
        have hroom := ih hws' hprev
        obtain ⟨us', hus⟩ := entries_replay_of_leavesRoom hys hcard hws' hroom
        have hfull := card_replay_le hcard ws
        have hfree := entries_applyFree hus (hws w (by simp))
        rw [apply_eq_bound hfull] at h
        refine leavesRoom_snoc.mpr ⟨hroom, ?_⟩
        rw [contents_snoc]
        rcases entries_bound (card_applyFree_le.trans (Nat.succ_le_succ hfull)) hfree with hb | hb
        · exact hb.1
        · rw [hb.2] at h
          cases h
  · intro hroom
    obtain ⟨us', hus⟩ := entries_replay_of_leavesRoom hys hcard hws hroom
    exact hfound hus

/-- The last write to a key splits the log. -/
theorem lastWrite_eq_some_iff : lastWrite k ws = some w ↔
    ∃ pre post, ws = pre ++ w :: post ∧ w.key = k ∧ ∀ v ∈ post, v.key ≠ k := by
  induction ws using List.reverseRecOn with
  | nil => simp [lastWrite]
  | append_singleton ws v ih =>
      by_cases hv : v.key = k
      · rw [lastWrite_snoc_self ws hv]
        constructor
        · rintro ⟨⟩
          exact ⟨ws, [], rfl, hv, by simp⟩
        · rintro ⟨pre, post, heq, -, hpost⟩
          rcases List.eq_nil_or_concat post with rfl | ⟨post', u, rfl⟩
          · cases (List.append_inj' heq rfl).2
            rfl
          · rw [List.concat_eq_append, ← List.cons_append, ← List.append_assoc] at heq
            have hu := (List.append_inj' heq rfl).2
            cases hu
            exact absurd hv (hpost _ (by simp))
      · rw [lastWrite_snoc_of_ne ws hv, ih]
        constructor
        · rintro ⟨pre, post, rfl, hw, hpost⟩
          refine ⟨pre, post ++ [v], by simp, hw, ?_⟩
          intro u hu
          rcases List.mem_append.mp hu with hu | hu
          · exact hpost u hu
          · rw [List.mem_singleton.mp hu]
            exact hv
        · rintro ⟨pre, post, heq, hw, hpost⟩
          rcases List.eq_nil_or_concat post with rfl | ⟨post', u, rfl⟩
          · cases (List.append_inj' heq rfl).2
            exact absurd hw hv
          · rw [List.concat_eq_append, ← List.cons_append, ← List.append_assoc] at heq
            refine ⟨pre, post', (List.append_inj' heq rfl).1, hw, ?_⟩
            exact fun x hx => hpost x (by simp [hx])

/-- **The last put to a key** counts if and only if what follows leaves it room. -/
theorem lookup_replay_split_iff {pre post : List (Write κ β)} (hpost : ∀ v ∈ post, v.key ≠ k) :
    (replay cap (pre ++ .put k b :: post) ∅).lookup k = some b ↔ LeavesRoom cap post := by
  have hfull : (replay cap pre ∅).card ≤ cap := card_replay_le (Nat.zero_le _) pre
  rw [replay_append, replay_cons]
  by_cases hcap : 0 < cap
  · have hins : ((replay cap pre ∅).insert k b).entries =
        (∅ : RecencyList κ β).entries ++ ⟨k, b⟩ :: (replay cap pre ∅).entries.kerase k := rfl
    have hle := (AList.card_insert_le (replay cap pre ∅) k b).trans (Nat.succ_le_succ hfull)
    rcases entries_bound hle hins with ⟨-, us, hus⟩ | ⟨hzero, -⟩
    · exact lookup_replay_iff_leavesRoom hus (RecencyList.card_put_le cap k b hfull) hpost
    · exact absurd hcap (not_lt.mpr hzero)
  · have hempty : replay cap post (RecencyList.put cap k b (replay cap pre ∅)) = ∅ :=
      AList.eq_empty_of_card_le
        ((card_replay_le (RecencyList.card_put_le cap k b hfull) post).trans (not_lt.mp hcap))
    change (replay cap post (RecencyList.put cap k b (replay cap pre ∅))).lookup k = _ ↔ _
    rw [hempty]
    constructor
    · rintro ⟨⟩
    · intro hroom
      exact absurd (hroom [] List.nil_prefix) hcap

theorem eq_of_lookup_replay_split (pre : List (Write κ β)) {post : List (Write κ β)} {c : β}
    (hpost : ∀ v ∈ post, v.key ≠ k)
    (h : (replay cap (pre ++ .put k b :: post) ∅).lookup k = some c) : c = b := by
  rcases lookup_replay h with hlast | ⟨-, hnone⟩
  · have hb : lastWrite k (pre ++ .put k b :: post) = some (.put k b) :=
      lastWrite_eq_some_iff.mpr ⟨pre, post, rfl, rfl, hpost⟩
    cases hlast.symm.trans hb
    rfl
  · cases hnone

/-- **What a replay from nothing leaves under a key**: what the last put to it gave, if no write to
the key follows and those that follow leave it room. -/
theorem lookup_replay_empty_iff : (replay cap ws ∅).lookup k = some b ↔
    ∃ pre post, ws = pre ++ .put k b :: post ∧ (∀ v ∈ post, v.key ≠ k) ∧ LeavesRoom cap post := by
  constructor
  · intro h
    rcases lookup_replay h with hlast | ⟨-, hnone⟩
    · obtain ⟨pre, post, rfl, -, hpost⟩ := lastWrite_eq_some_iff.mp hlast
      exact ⟨pre, post, rfl, hpost, (lookup_replay_split_iff hpost).mp h⟩
    · cases hnone
  · rintro ⟨pre, post, rfl, hpost, hroom⟩
    exact (lookup_replay_split_iff hpost).mpr hroom

end Room

/-! ## Replaying over other entries -/

section Over
variable {cap : ℕ} {w : Write κ β} {k : κ} {b : β} {xs ys : RecencyList κ β}

@[simp] theorem replayFree_nil : replayFree [] xs = xs := rfl
@[simp] theorem replayFree_cons (ws : List (Write κ β)) :
    replayFree (w :: ws) xs = replayFree ws (w.applyFree xs) := rfl

theorem contents_append (ws vs : List (Write κ β)) :
    contents (ws ++ vs) = replayFree vs (contents ws) := List.foldl_append

theorem lookup_replayFree_congr (h : ∀ j, xs.lookup j = ys.lookup j) (ws : List (Write κ β))
    (j : κ) : (replayFree ws xs).lookup j = (replayFree ws ys).lookup j := by
  induction ws generalizing xs ys with
  | nil => exact h j
  | cons w ws ih => exact ih (Write.lookup_applyFree_congr h w)

theorem card_replayFree_congr (h : ∀ j, xs.lookup j = ys.lookup j) (ws : List (Write κ β)) :
    (replayFree ws xs).card = (replayFree ws ys).card :=
  AList.card_eq_of_lookup (lookup_replayFree_congr h ws)

/-- Further entries stay behind the others, except those the log mentions. -/
theorem entries_replayFree_append {us : List (Sigma fun _ : κ => β)}
    (h : ys.entries = xs.entries ++ us) (ws : List (Write κ β)) :
    ∃ us', (replayFree ws ys).entries = (replayFree ws xs).entries ++ us' ∧ us'.Sublist us ∧
      ∀ x ∈ us, (∀ w ∈ ws, w.key ≠ x.1) → x ∈ us' := by
  induction ws generalizing xs ys us with
  | nil => exact ⟨us, h, .refl us, fun x hx _ => hx⟩
  | cons w ws ih =>
      have herase : ys.entries.kerase w.key = xs.entries.kerase w.key ++ us.kerase w.key := by
        rw [h, kerase_append (h ▸ ys.nodupKeys)]
      have hfree : (w.applyFree ys).entries = (w.applyFree xs).entries ++ us.kerase w.key := by
        cases w with
        | erase j => exact herase
        | put j c =>
            change (ys.insert j c).entries = (xs.insert j c).entries ++ _
            rw [AList.entries_insert, AList.entries_insert]
            exact congrArg (List.cons _) herase
      obtain ⟨us', hus, hsub, hkeep⟩ := ih hfree
      refine ⟨us', hus, hsub.trans (List.kerase_sublist _ _), ?_⟩
      intro x hx hws
      refine hkeep x ?_ fun v hv => hws v (List.mem_cons_of_mem w hv)
      exact (List.mem_eraseP_of_neg (by simpa using hws w List.mem_cons_self)).mpr hx

/-- A replay that never exceeds the bound does what the log says. -/
theorem replay_eq_contents {ws : List (Write κ β)}
    (h : ∀ vs, vs <+: ws → (contents vs).card ≤ cap) : replay cap ws ∅ = contents ws := by
  induction ws using List.reverseRecOn with
  | nil => rfl
  | append_singleton ws w ih =>
      have hws := ih fun vs hvs => h vs (hvs.trans (List.prefix_append _ _))
      exact replay_snoc_of_fits hws (h _ List.prefix_rfl)

/-- More of a log stands for no fewer keys. -/
theorem card_contents_le_append (ws vs : List (Write κ β)) :
    (contents vs).card ≤ (contents (ws ++ vs)).card := by
  have hnil : (contents ws).entries = (∅ : RecencyList κ β).entries ++ (contents ws).entries := rfl
  obtain ⟨us, hus, -, -⟩ := entries_replayFree_append hnil vs
  rw [contents_append]
  have hlen := congrArg List.length hus
  rw [List.length_append] at hlen
  exact (Nat.le_add_right _ _).trans hlen.ge

/-- A put that nothing overrides counts as one more key. -/
theorem card_contents_cons_put (b : β) {ws : List (Write κ β)} (hws : ∀ w ∈ ws, w.key ≠ k) :
    (contents (.put k b :: ws)).card = (contents ws).card + 1 := by
  have hone : ((∅ : RecencyList κ β).insert k b).entries =
      (∅ : RecencyList κ β).entries ++ [⟨k, b⟩] := rfl
  obtain ⟨us, hus, hsub, hkeep⟩ := entries_replayFree_append hone ws
  have hlen : us.length = 1 := by
    have hle := hsub.length_le
    have hpos := List.length_pos_of_mem (hkeep ⟨k, b⟩ (by simp) hws)
    simp only [List.length_singleton] at hle
    omega
  change (replayFree ws ((∅ : RecencyList κ β).insert k b)).entries.length = _
  rw [hus, List.length_append, hlen]
  rfl

theorem card_contents_le_length (ws : List (Write κ β)) : (contents ws).card ≤ ws.length := by
  induction ws using List.reverseRecOn with
  | nil => exact Nat.le_refl 0
  | append_singleton ws w ih =>
      rw [contents_snoc, List.length_append]
      exact card_applyFree_le.trans (Nat.succ_le_succ ih)

/-- **A key that the log mentions** does not depend on what was there before. -/
theorem lookup_replay_of_mentioned (hcard : ys.card ≤ cap) {ws : List (Write κ β)}
    (hw : w ∈ ws) (hk : w.key = k) :
    (replay cap ws ys).lookup k = (replay cap ws ∅).lookup k := by
  have hnil : ys.entries = (∅ : RecencyList κ β).entries ++ ys.entries := rfl
  obtain ⟨us, hus, hmem⟩ := entries_replay_append hcard hnil ws
  have hfree : k ∉ us.keys := by
    intro hin
    obtain ⟨b, hb⟩ := List.exists_of_mem_keys hin
    exact (hmem _ hb).2 w hw hk.symm
  apply Option.ext
  intro b
  rw [← Option.mem_def, ← Option.mem_def, AList.mem_lookup_iff, AList.mem_lookup_iff, hus,
    List.mem_append]
  exact or_iff_left fun hb => hfree (List.mem_keys_of_mem hb)

end Over

/-! ## Puts to different keys -/

section Puts
variable {es : List (Sigma fun _ : κ => β)} {xs : RecencyList κ β} {k : κ}

/-- One put for each entry. -/
def puts (es : List (Sigma fun _ : κ => β)) : List (Write κ β) := es.map fun x => .put x.1 x.2

omit [DecidableEq κ] in
@[simp] theorem length_puts : (puts es).length = es.length := List.length_map _

omit [DecidableEq κ] in
theorem puts_append (es fs : List (Sigma fun _ : κ => β)) :
    puts (es ++ fs) = puts es ++ puts fs := List.map_append

omit [DecidableEq κ] in
theorem key_ne_of_mem_puts (hk : k ∉ es.keys) {w : Write κ β} (hw : w ∈ puts es) : w.key ≠ k := by
  obtain ⟨x, hx, rfl⟩ := List.mem_map.mp hw
  rintro rfl
  exact hk (List.mem_keys_of_mem hx)

/-- Puts for the entries of a map stand for the map, in whatever order they are. -/
theorem standing_puts (h : es.Perm xs.entries) (k : κ) : standing k (puts es) = xs.lookup k := by
  have hkeys : k ∈ es.keys ↔ k ∈ xs.keys := (h.map Sigma.fst).mem_iff
  cases hk : xs.lookup k with
  | none =>
      have hnot : k ∉ es.keys := fun hmem => AList.lookup_eq_none.mp hk (hkeys.mp hmem)
      have hfilter : (puts es).filter (fun w => w.key = k) = [] := by
        refine List.filter_eq_nil_iff.mpr ?_
        intro w hw
        simpa using key_ne_of_mem_puts hnot hw
      simp [standing, lastWrite, hfilter]
  | some b =>
      have hmem : (⟨k, b⟩ : Sigma fun _ : κ => β) ∈ es := h.mem_iff.mpr (AList.mem_lookup_iff.mp hk)
      obtain ⟨pre, post, rfl⟩ := List.append_of_mem hmem
      have hnodup : (pre ++ ⟨k, b⟩ :: post).NodupKeys :=
        ((h.map Sigma.fst).nodup_iff).mpr xs.nodupKeys
      have hpost : k ∉ post.keys := by
        have hright := hnodup.sublist (List.sublist_append_right _ _)
        exact (List.nodup_cons.mp hright).1
      have hlast : lastWrite k (puts (pre ++ ⟨k, b⟩ :: post)) = some (.put k b) := by
        rw [puts_append]
        exact lastWrite_eq_some_iff.mpr
          ⟨_, puts post, rfl, rfl, fun v hv => key_ne_of_mem_puts hpost hv⟩
      simp [standing, hlast]

theorem card_replayFree_puts (h : es.Perm xs.entries) (vs : List (Write κ β)) :
    (contents (puts es ++ vs)).card = (replayFree vs xs).card := by
  rw [contents_append]
  refine card_replayFree_congr (fun j => ?_) vs
  rw [lookup_contents, standing_puts h]

/-- A part of a log that follows another is a part of the one, or all of it and a part of the
other. -/
theorem prefix_append_cases {α : Type} {l₁ l₂ l : List α} (h : l <+: l₁ ++ l₂) :
    l <+: l₁ ∨ ∃ l', l = l₁ ++ l' ∧ l' <+: l₂ := by
  rcases List.prefix_or_prefix_of_prefix h (List.prefix_append l₁ l₂) with hl | ⟨l', rfl⟩
  · exact .inl hl
  · exact .inr ⟨l', rfl, (List.prefix_append_right_inj l₁).mp h⟩

variable {cap : ℕ} {ws : List (Write κ β)}

/-- Nothing else comes back. -/
theorem lookup_of_lookup_replay_puts (h : es.Perm xs.entries) (hk : ∀ w ∈ ws, w.key ≠ k) {b : β}
    (hb : (replay cap (puts es ++ ws) ∅).lookup k = some b) : xs.lookup k = some b := by
  rw [replay_append] at hb
  rcases lookup_replay (lookup_replay_of_unmentioned hk hb) with hlast | ⟨-, hnone⟩
  · rw [← standing_puts h k, standing, hlast]
  · cases hnone

/-- **Entries that are put back are all kept** by a log that does not mention them, if the log,
replayed over them without a bound, never exceeds it. -/
theorem lookup_replay_puts (h : es.Perm xs.entries) (hcard : xs.card ≤ cap)
    (hfits : ∀ vs, vs <+: ws → (replayFree vs xs).card ≤ cap) (hk : ∀ w ∈ ws, w.key ≠ k) :
    (replay cap (puts es ++ ws) ∅).lookup k = xs.lookup k := by
  cases hx : xs.lookup k with
  | none =>
      by_contra hne
      obtain ⟨c, hc⟩ := Option.ne_none_iff_exists'.mp hne
      cases hx.symm.trans (lookup_of_lookup_replay_puts h hk hc)
  | some b =>
      have hmem : (⟨k, b⟩ : Sigma fun _ : κ => β) ∈ es := h.mem_iff.mpr (AList.mem_lookup_iff.mp hx)
      have hlen : es.length = xs.card := h.length_eq
      obtain ⟨pre, post, rfl⟩ := List.append_of_mem hmem
      have hnodup : (pre ++ ⟨k, b⟩ :: post).NodupKeys :=
        ((h.map Sigma.fst).nodup_iff).mpr xs.nodupKeys
      have hpost : k ∉ post.keys :=
        (List.nodup_cons.mp (hnodup.sublist (List.sublist_append_right _ _))).1
      have hrest : ∀ v ∈ puts post ++ ws, v.key ≠ k := by
        intro v hv
        rcases List.mem_append.mp hv with hv | hv
        · exact key_ne_of_mem_puts hpost hv
        · exact hk v hv
      have hsplit : puts (pre ++ ⟨k, b⟩ :: post) ++ ws =
          puts pre ++ .put k b :: (puts post ++ ws) := by
        rw [puts_append, List.append_assoc]
        rfl
      rw [hsplit, lookup_replay_split_iff hrest]
      intro vs hvs
      rcases prefix_append_cases hvs with hvs | ⟨vs', rfl, hvs'⟩
      · have hle := (card_contents_le_length vs).trans hvs.length_le
        simp only [length_puts] at hle
        simp only [List.length_append, List.length_cons] at hlen
        omega
      · have hsub : ∀ v ∈ puts post ++ vs', v.key ≠ k := fun v hv => hrest v (hvs.subset hv)
        have hall := card_replayFree_puts h vs'
        rw [puts_append, List.append_assoc] at hall
        have hle := card_contents_le_append (puts pre) (.put k b :: (puts post ++ vs'))
        rw [card_contents_cons_put b hsub] at hle
        have := hfits vs' hvs'
        change _ ≤ (contents (puts pre ++ (puts (⟨k, b⟩ :: post) ++ vs'))).card at hle
        omega

/-- **If the entry that was put back first is kept** then the log, replayed over all of them without
a bound, never exceeds it. -/
theorem card_replayFree_le_of_kept {b : β} (h : (⟨k, b⟩ :: es).Perm xs.entries)
    (hk : ∀ w ∈ ws, w.key ≠ k)
    (hkept : (replay cap (puts (⟨k, b⟩ :: es) ++ ws) ∅).lookup k = some b) {vs : List (Write κ β)}
    (hvs : vs <+: ws) : (replayFree vs xs).card ≤ cap := by
  have hnodup : (⟨k, b⟩ :: es).NodupKeys := ((h.map Sigma.fst).nodup_iff).mpr xs.nodupKeys
  have hrest : ∀ v ∈ puts es ++ ws, v.key ≠ k := by
    intro v hv
    rcases List.mem_append.mp hv with hv | hv
    · exact key_ne_of_mem_puts (List.nodup_cons.mp hnodup).1 hv
    · exact hk v hv
  have hsplit : (replay cap ([] ++ .put k b :: (puts es ++ ws)) ∅).lookup k = some b ↔
      LeavesRoom cap (puts es ++ ws) := lookup_replay_split_iff hrest
  have hroom := hsplit.mp hkept
  have hpart : puts es ++ vs <+: puts es ++ ws := (List.prefix_append_right_inj _).mpr hvs
  have hlt := hroom _ hpart
  rw [← card_replayFree_puts h vs]
  change (contents (.put k b :: (puts es ++ vs))).card ≤ cap
  rw [card_contents_cons_put b fun v hv => hrest v (hpart.subset hv)]
  exact hlt

end Puts
end WriteLog
