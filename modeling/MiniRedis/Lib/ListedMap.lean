import MiniRedis.Lib.RecencyList
import MiniRedis.Lib.StableList

/-!
# A map indexed by a linked list

The usual implementation of a recency list: a map from keys to entries, a linked list of the keys,
and in each entry the position of its key's node. `ListedMap view pos map list xs` says that the two
structures together represent `xs`, where `view` is what an entry means and `pos` its position.

The rules say what a change of the map and the list does to `xs`. They do not depend on how the
change is carried out: a node may be spliced to the front, or unlinked and replaced by a new one.
-/
variable {κ ε β : Type}

structure ListedMap [DecidableEq κ] (view : ε → β) (pos : ε → ℕ) (map : AList (fun _ : κ => ε))
    (list : StableList κ) (xs : RecencyList κ β) : Prop where
  order : list.toList = xs.keys
  records : ∀ k, (map.lookup k).map view = xs.lookup k
  node : ∀ k e, map.lookup k = some e → (pos e, k) ∈ list.nodes

namespace ListedMap
variable [DecidableEq κ] {view : ε → β} {pos : ε → ℕ} {map map' : AList (fun _ : κ => ε)}
  {list list' : StableList κ} {xs : RecencyList κ β} {k : κ} {e : ε}

theorem empty : ListedMap view pos (∅ : AList (fun _ : κ => ε)) StableList.empty ∅ :=
  ⟨rfl, fun _ => rfl, fun _ _ h => by cases h⟩

theorem lookup_some (H : ListedMap view pos map list xs) (h : map.lookup k = some e) :
    xs.lookup k = some (view e) := by
  rw [← H.records k, h]
  rfl

theorem lookup_none (H : ListedMap view pos map list xs) (h : map.lookup k = none) :
    xs.lookup k = none := by
  rw [← H.records k, h]
  rfl

theorem exists_entry (H : ListedMap view pos map list xs) {b : β} (h : xs.lookup k = some b) :
    ∃ e, map.lookup k = some e ∧ view e = b := by
  rw [← H.records k] at h
  exact Option.map_eq_some_iff.mp h

theorem mem_keys (H : ListedMap view pos map list xs) : k ∈ map.keys ↔ k ∈ xs.keys := by
  rw [AList.mem_keys_iff_lookup, AList.mem_keys_iff_lookup, ← H.records k]
  simp

/-- Every key has one node. -/
theorem nodup (H : ListedMap view pos map list xs) : list.toList.Nodup := by
  rw [H.order]
  exact xs.keys_nodup

theorem records_perm (H : ListedMap view pos map list xs) :
    (map.mapValues view).entries.Perm xs.entries := by
  apply AList.entries_perm_of_lookup
  intro k
  rw [AList.lookup_mapValues, H.records k]

theorem card_eq (H : ListedMap view pos map list xs) : map.card = xs.card := by
  rw [← AList.card_mapValues view]
  exact H.records_perm.length_eq

/-- A sum over the entries is the sum over what they mean. -/
theorem total_eq (H : ListedMap view pos map list xs) (f : κ → β → ℕ) :
    (map.total fun k e => f k (view e)) = xs.total f := by
  have hsum := (H.records_perm.map fun x => f x.1 x.2).sum_eq
  rw [AList.mapValues, List.map_map] at hsum
  exact hsum

/-- The key at the back of the list is the oldest one. -/
theorem back (H : ListedMap view pos map list xs) : list.back? = RecencyList.oldest? xs := by
  rw [StableList.back?_eq_getLast?, H.order]
  rfl

/-- What is not empty has a node at the back, and an entry for its key. -/
theorem exists_back (H : ListedMap view pos map list xs) (h : 0 < xs.card) :
    ∃ z e, RecencyList.oldest? xs = some z ∧ list.back? = some z ∧ map.lookup z = some e := by
  obtain ⟨z, hz⟩ := RecencyList.oldest?_isSome h
  obtain ⟨b, hb⟩ := AList.mem_keys_iff_lookup.mp (RecencyList.oldest?_mem hz)
  obtain ⟨e, he, -⟩ := H.exists_entry hb
  exact ⟨z, e, hz, H.back.trans hz, he⟩

/-- An absent key has no node. -/
theorem notMem_toList (H : ListedMap view pos map list xs) (h : map.lookup k = none) :
    k ∉ list.toList := by
  rw [H.order]
  exact AList.lookup_eq_none.mp (H.lookup_none h)

/-- An entry is stored under `k`, and `k` is at the front of the list; the other entries still have
their nodes. -/
theorem insert (H : ListedMap view pos map list xs)
    (horder : list'.toList = k :: list.toList.erase k) (hnode : (pos e, k) ∈ list'.nodes)
    (hnodes : ∀ p j, (p, j) ∈ list.nodes → j ≠ k → (p, j) ∈ list'.nodes) :
    ListedMap view pos (map.insert k e) list' (xs.insert k (view e)) := by
  refine ⟨?_, ?_, ?_⟩
  · rw [horder, AList.keys_insert, H.order]
  · intro j
    by_cases hj : j = k
    · rw [hj, AList.lookup_insert, AList.lookup_insert, Option.map_some]
    · rw [AList.lookup_insert_ne hj, AList.lookup_insert_ne hj, H.records j]
  · intro j f hf
    rcases AList.lookup_of_lookup_insert hf with ⟨rfl, rfl⟩ | ⟨hj, hf⟩
    · exact hnode
    · exact hnodes _ _ (H.node j f hf) hj

/-- A new entry, with a new node at the front. -/
theorem pushFront (H : ListedMap view pos map list xs) (hk : map.lookup k = none)
    (hpos : pos e = (list.pushFront k).begin) :
    ListedMap view pos (map.insert k e) (list.pushFront k) (xs.insert k (view e)) := by
  refine H.insert ?_ ?_ fun p j hp _ => StableList.mem_nodes_pushFront.mpr (.inr hp)
  · rw [List.erase_of_not_mem (H.notMem_toList hk), StableList.toList_pushFront]
  · rw [hpos]
    exact StableList.mem_nodes_pushFront.mpr (.inl ⟨rfl, rfl⟩)

/-- An entry is replaced, and its node spliced to the front. -/
theorem spliceFront (H : ListedMap view pos map list xs) (he : map.lookup k = some e) {e' : ε}
    (hpos : pos e' = (list.spliceFront (pos e)).begin) :
    ListedMap view pos (map.insert k e') (list.spliceFront (pos e)) (xs.insert k (view e')) := by
  have hnode := H.node k e he
  refine H.insert (StableList.toList_spliceFront H.nodup hnode) ?_
    fun p j hp _ => StableList.mem_nodes_spliceFront.mpr hp
  rw [hpos, StableList.begin_spliceFront hnode]
  exact StableList.mem_nodes_spliceFront.mpr hnode

/-- An entry is replaced, its node unlinked, and a new one linked at the front. -/
theorem relink (H : ListedMap view pos map list xs) (he : map.lookup k = some e) {e' : ε}
    (hpos : pos e' = ((list.erase (pos e)).pushFront k).begin) :
    ListedMap view pos (map.insert k e') ((list.erase (pos e)).pushFront k)
      (xs.insert k (view e')) := by
  have hnode := H.node k e he
  refine H.insert ?_ ?_ ?_
  · rw [StableList.toList_pushFront, StableList.toList_erase H.nodup hnode]
  · rw [hpos]
    exact StableList.mem_nodes_pushFront.mpr (.inl ⟨rfl, rfl⟩)
  · intro p j hp hj
    refine StableList.mem_nodes_pushFront.mpr (.inr (StableList.mem_nodes_erase.mpr ⟨hp, ?_⟩))
    rintro rfl
    exact hj (StableList.eq_of_mem hp hnode)

/-- An entry is erased and its node unlinked. -/
theorem erase (H : ListedMap view pos map list xs) (he : map.lookup k = some e) :
    ListedMap view pos (map.erase k) (list.erase (pos e)) (xs.erase k) := by
  have hnode := H.node k e he
  refine ⟨?_, ?_, ?_⟩
  · rw [StableList.toList_erase H.nodup hnode, AList.keys_erase, H.order]
  · intro j
    by_cases hj : j = k
    · subst hj
      simp
    · rw [AList.lookup_erase_ne hj, AList.lookup_erase_ne hj, H.records j]
  · intro j f hf
    obtain ⟨hj, hf⟩ := AList.lookup_of_lookup_erase hf
    refine StableList.mem_nodes_erase.mpr ⟨H.node j f hf, ?_⟩
    intro heq
    exact hj (StableList.eq_of_mem (heq ▸ H.node j f hf) hnode)

/-- The last node is unlinked and its key erased from the map. -/
theorem popBack (H : ListedMap view pos map list xs) (hk : list.back? = some k) :
    ListedMap view pos (map.erase k) list.popBack (xs.erase k) := by
  have hmem : k ∈ xs.keys := RecencyList.oldest?_mem (H.back ▸ hk)
  obtain ⟨b, hb⟩ := AList.mem_keys_iff_lookup.mp hmem
  obtain ⟨e, he, -⟩ := H.exists_entry hb
  rw [StableList.popBack_eq_erase hk (H.nodup) (H.node k e he)]
  exact H.erase he

end ListedMap
