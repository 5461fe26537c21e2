import Mathlib.Data.List.Nodup

/-!
# Linked lists with stable positions

A `StableList α` is a doubly linked list as a program holding iterators into it sees it. A node is
named by a position, which it keeps for as long as it is linked, whatever is pushed, moved or
unlinked around it. That positions are distinct and never reused is part of the type.

`toList` is the specification view, the elements from front to back. Each operation has one lemma
saying what it does to that view and one saying what it does to the nodes.
-/

/-- A linked list whose nodes carry a permanent position. -/
structure StableList (α : Type) where
  /-- The linked nodes, front first. -/
  nodes : List (ℕ × α)
  /-- The position the next new node receives, and the past-the-end position. -/
  next : ℕ
  nodup : (nodes.map Prod.fst).Nodup
  fresh : ∀ n ∈ nodes, n.1 < next

namespace StableList
variable {α : Type}

def empty : StableList α := ⟨[], 0, List.nodup_nil, by simp⟩

/-- The elements, front first. -/
def toList (l : StableList α) : List α := l.nodes.map Prod.snd

/-- The position of the front node, or the past-the-end position. -/
def begin (l : StableList α) : ℕ := (l.nodes.head?.map Prod.fst).getD l.next

/-- The last element, if there is one. -/
def back? (l : StableList α) : Option α := l.nodes.getLast?.map Prod.snd

/-- Link a new node at the front. -/
def pushFront (a : α) (l : StableList α) : StableList α where
  nodes := (l.next, a) :: l.nodes
  next := l.next + 1
  nodup := by
    simp only [List.map_cons, List.nodup_cons]
    refine ⟨?_, l.nodup⟩
    intro h
    obtain ⟨n, hn, heq⟩ := List.mem_map.mp h
    have := l.fresh n hn
    omega
  fresh := by
    intro n hn
    rcases List.mem_cons.mp hn with rfl | hn
    · exact Nat.lt_succ_self _
    · exact Nat.lt_succ_of_lt (l.fresh n hn)

/-- Unlink the node at position `p`. -/
def erase (p : ℕ) (l : StableList α) : StableList α where
  nodes := l.nodes.filter (fun n => n.1 ≠ p)
  next := l.next
  nodup := l.nodup.sublist (List.filter_sublist.map _)
  fresh := fun n hn => l.fresh n (List.mem_of_mem_filter hn)

/-- Unlink the last node. -/
def popBack (l : StableList α) : StableList α where
  nodes := l.nodes.dropLast
  next := l.next
  nodup := l.nodup.sublist ((List.dropLast_sublist _).map _)
  fresh := fun n hn => l.fresh n ((List.dropLast_sublist _).subset hn)

private theorem filter_perm (p : ℕ) (ns : List (ℕ × α)) :
    (ns.filter (fun n => n.1 = p) ++ ns.filter (fun n => n.1 ≠ p)).Perm ns := by
  simpa using List.filter_append_perm (fun n : ℕ × α => decide (n.1 = p)) ns

/-- Relink the node at position `p` at the front. The node keeps its position. -/
def spliceFront (p : ℕ) (l : StableList α) : StableList α where
  nodes := l.nodes.filter (fun n => n.1 = p) ++ l.nodes.filter (fun n => n.1 ≠ p)
  next := l.next
  nodup := ((filter_perm p l.nodes).map Prod.fst).nodup_iff.mpr l.nodup
  fresh := fun n hn => l.fresh n ((filter_perm p l.nodes).mem_iff.mp hn)

/-! ## Positions -/

/-- A linked position holds one element. -/
theorem eq_of_mem {l : StableList α} {p : ℕ} {a b : α} (ha : (p, a) ∈ l.nodes)
    (hb : (p, b) ∈ l.nodes) : a = b := by
  have h := List.inj_on_of_nodup_map l.nodup ha hb rfl
  exact congrArg Prod.snd h

/-- When elements are distinct, an element has one position. -/
theorem pos_eq_of_mem {l : StableList α} (hn : l.toList.Nodup) {p q : ℕ} {a : α}
    (hp : (p, a) ∈ l.nodes) (hq : (q, a) ∈ l.nodes) : p = q := by
  have h := List.inj_on_of_nodup_map hn hp hq rfl
  exact congrArg Prod.fst h

theorem mem_nodes_pushFront {l : StableList α} {a b : α} {p : ℕ} :
    (p, b) ∈ (pushFront a l).nodes ↔ (p = l.next ∧ b = a) ∨ (p, b) ∈ l.nodes := by
  simp [pushFront]

theorem mem_nodes_erase {l : StableList α} {b : α} {p q : ℕ} :
    (q, b) ∈ (erase p l).nodes ↔ (q, b) ∈ l.nodes ∧ q ≠ p := by
  simp [erase]

theorem mem_nodes_spliceFront {l : StableList α} {n : ℕ × α} {p : ℕ} :
    n ∈ (spliceFront p l).nodes ↔ n ∈ l.nodes :=
  (filter_perm p l.nodes).mem_iff

/-! ## The view as a plain list -/

@[simp] theorem toList_empty : (empty : StableList α).toList = [] := rfl

@[simp] theorem toList_pushFront (a : α) (l : StableList α) :
    (pushFront a l).toList = a :: l.toList := rfl

@[simp] theorem begin_pushFront (a : α) (l : StableList α) : (pushFront a l).begin = l.next := rfl

theorem back?_eq_getLast? (l : StableList α) : l.back? = l.toList.getLast? := by
  simp [back?, toList, List.getLast?_map]

/-- Unlinking the node that holds `a` removes `a` from the view. -/
theorem toList_erase [DecidableEq α] {l : StableList α} (hn : l.toList.Nodup) {p : ℕ} {a : α}
    (h : (p, a) ∈ l.nodes) : (erase p l).toList = l.toList.erase a := by
  have hiff : ∀ n ∈ l.nodes, decide (n.1 ≠ p) = decide (n.2 ≠ a) := by
    rintro ⟨q, b⟩ hq
    by_cases hqp : q = p
    · subst hqp
      have hb : b = a := eq_of_mem hq h
      simp [hb]
    · have hb : b ≠ a := fun hb => hqp (pos_eq_of_mem hn (hb ▸ hq) h)
      simp [hqp, hb]
  rw [hn.erase_eq_filter]
  simp only [toList, erase, List.filter_map]
  rw [List.filter_congr hiff]
  congr 1
  apply List.filter_congr
  intro n _
  simp only [Function.comp_apply, bne, ne_eq, decide_not]
  rfl

private theorem filter_eq_singleton {ns : List (ℕ × α)} (hn : (ns.map Prod.fst).Nodup) {p : ℕ}
    {a : α} (h : (p, a) ∈ ns) : ns.filter (fun n => n.1 = p) = [(p, a)] := by
  induction ns with
  | nil => simp at h
  | cons m ms ih =>
      simp only [List.map_cons, List.nodup_cons] at hn
      rcases List.mem_cons.mp h with rfl | h
      · have hnil : ms.filter (fun n => decide (n.1 = p)) = [] := by
          apply List.filter_eq_nil_iff.mpr
          intro n hm
          have hmem : n.1 ∈ ms.map Prod.fst := List.mem_map_of_mem hm
          have hne : n.1 ≠ p := fun heq => hn.1 (heq ▸ hmem)
          simpa using hne
        simp [hnil]
      · have hne : m.1 ≠ p := fun heq => hn.1 (heq ▸ List.mem_map_of_mem (f := Prod.fst) h)
        simp only [hne, decide_false, Bool.false_eq_true, not_false_eq_true,
          List.filter_cons_of_neg, ih hn.2 h]

/-- Moving the node that holds `a` to the front moves `a` to the front of the view. -/
theorem toList_spliceFront [DecidableEq α] {l : StableList α} (hn : l.toList.Nodup) {p : ℕ}
    {a : α} (h : (p, a) ∈ l.nodes) : (spliceFront p l).toList = a :: l.toList.erase a := by
  rw [← toList_erase hn h]
  simp only [toList, spliceFront, filter_eq_singleton l.nodup h]
  rfl

/-- When elements are distinct, the last node is the one that holds the last element. -/
theorem popBack_eq_erase {l : StableList α} {a : α} (h : l.back? = some a) (hn : l.toList.Nodup)
    {p : ℕ} (hp : (p, a) ∈ l.nodes) : l.popBack = erase p l := by
  obtain ⟨n, hlast, rfl⟩ := Option.map_eq_some_iff.mp h
  have hnode : n ∈ l.nodes := List.mem_of_getLast? hlast
  obtain rfl : n.1 = p := pos_eq_of_mem hn hnode hp
  have heq : l.nodes.dropLast ++ [n] = l.nodes := List.dropLast_append_getLast? n hlast
  have hkeep : ∀ m ∈ l.nodes.dropLast, m.1 ≠ n.1 := by
    have hnodup := l.nodup
    rw [← heq, List.map_append, List.nodup_append] at hnodup
    intro m hm
    exact hnodup.2.2 _ (List.mem_map_of_mem hm) _ (by simp)
  have hnodes : l.nodes.dropLast = l.nodes.filter (fun m => m.1 ≠ n.1) := by
    conv_rhs => rw [← heq]
    rw [List.filter_append, List.filter_eq_self.mpr fun m hm => decide_eq_true (hkeep m hm)]
    simp
  simp only [popBack, erase, hnodes]

theorem begin_spliceFront {l : StableList α} {p : ℕ} {a : α} (h : (p, a) ∈ l.nodes) :
    (spliceFront p l).begin = p := by
  simp [begin, spliceFront, filter_eq_singleton l.nodup h]

end StableList
