import MiniRedis.Cache.LruSpec
import MiniRedis.Cache.Shard
import MiniRedis.Lib.ListedMap

/-!
# What a shard means

`Shard.Holds P sh xs` says that the hash map, the linked list and the iterators of `sh` together
represent the recency list `xs` of records. Each function that runs under the shard's lock then has
one theorem, what it does to `xs`. The eviction loop is the only one that is not a step of its own:
`setImpl_cases` lists everything a `set` can do.
-/
namespace MiniRedis
variable {Key Value : Type}

/-- What a caller can observe of an entry. -/
def Entry.record (e : Entry Value) : Record Value :=
  ⟨e.value, if e.hasExpiry then some e.expiry else none⟩

@[simp] theorem record_value (e : Entry Value) : e.record.value = e.value := rfl

theorem expired_record (e : Entry Value) (now : TimePoint) :
    e.record.expired now = isExpired e now := by
  cases h : e.hasExpiry <;> simp [Entry.record, Record.expired, isExpired, h]

variable [DecidableEq Key] (P : CacheParams Key Value)

/-- The map, the list and the iterators of a shard represent a recency list. -/
structure Shard.Holds (sh : Shard Key Value) (xs : RecencyList Key (Record Value)) : Prop where
  order : sh.lru.toList = xs.keys
  records : ∀ k, (sh.map.lookup k).map Entry.record = xs.lookup k
  pos : ∀ k e, sh.map.lookup k = some e → (e.lruPos, k) ∈ sh.lru.nodes
  bytes : ∀ k e, sh.map.lookup k = some e → e.bytes = P.estimateEntryBytes k e.value

namespace Shard.Holds
variable {P} {sh : Shard Key Value} {xs : RecencyList Key (Record Value)} {k : Key}
  {e : Entry Value}

/-- A shard is a map indexed by a linked list, and each entry knows its size. -/
theorem listed (H : Holds P sh xs) : ListedMap Entry.record Entry.lruPos sh.map sh.lru xs :=
  ⟨H.order, H.records, H.pos⟩

theorem of_listed (L : ListedMap Entry.record Entry.lruPos sh.map sh.lru xs)
    (hbytes : ∀ k e, sh.map.lookup k = some e → e.bytes = P.estimateEntryBytes k e.value) :
    Holds P sh xs :=
  ⟨L.order, L.records, L.node, hbytes⟩

theorem lookup_some (H : Holds P sh xs) (h : sh.map.lookup k = some e) :
    xs.lookup k = some e.record := H.listed.lookup_some h

theorem lookup_none (H : Holds P sh xs) (h : sh.map.lookup k = none) : xs.lookup k = none :=
  H.listed.lookup_none h

theorem exists_entry (H : Holds P sh xs) {r : Record Value} (h : xs.lookup k = some r) :
    ∃ e, sh.map.lookup k = some e ∧ e.record = r := H.listed.exists_entry h

theorem mem_keys (H : Holds P sh xs) : k ∈ sh.map.keys ↔ k ∈ xs.keys := H.listed.mem_keys

theorem nodup (H : Holds P sh xs) : sh.lru.toList.Nodup := H.listed.nodup

theorem records_perm (H : Holds P sh xs) :
    (sh.map.mapValues Entry.record).entries.Perm xs.entries := H.listed.records_perm

theorem card_eq (H : Holds P sh xs) : sh.map.card = xs.card := H.listed.card_eq

/-- The key at the back of `lru` is the oldest one, and it is in the map. -/
theorem back (H : Holds P sh xs) : sh.lru.back? = RecencyList.oldest? xs := H.listed.back

/-- A shard is determined by its map, list and iterators: the other fields are free. -/
theorem congr {sh' : Shard Key Value} (H : Holds P sh xs) (hmap : sh'.map = sh.map)
    (hlru : sh'.lru = sh.lru) : Holds P sh' xs := by
  refine of_listed ?_ ?_
  · rw [hmap, hlru]; exact H.listed
  · rw [hmap]; exact H.bytes

/-- An entry of the right size is stored. -/
theorem bytes_insert (H : Holds P sh xs) (hbytes : e.bytes = P.estimateEntryBytes k e.value) :
    ∀ j f, (sh.map.insert k e).lookup j = some f → f.bytes = P.estimateEntryBytes j f.value := by
  intro j f hf
  rcases AList.lookup_of_lookup_insert hf with ⟨rfl, rfl⟩ | ⟨-, hf⟩
  · exact hbytes
  · exact H.bytes j f hf

end Shard.Holds

theorem Shard.holds_empty (capacity : ℕ) :
    Shard.Holds P (Shard.empty capacity : Shard Key Value) ∅ :=
  .of_listed .empty fun _ _ h => by cases h

/-! ## What each function leaves alone -/

namespace Locked
variable (s : Locked Key Value) (k : Key) (e : Entry Value)

@[simp] theorem capacity_touch : (s.touchLruLocked k e).shard.capacity = s.shard.capacity := rfl
@[simp] theorem inflight_touch : (s.touchLruLocked k e).shard.inflight = s.shard.inflight := rfl
@[simp] theorem counters_touch : (s.touchLruLocked k e).counters = s.counters := rfl
@[simp] theorem capacity_erase : (s.eraseEntryLocked k e).shard.capacity = s.shard.capacity := rfl
@[simp] theorem inflight_erase : (s.eraseEntryLocked k e).shard.inflight = s.shard.inflight := rfl
@[simp] theorem map_erase : (s.eraseEntryLocked k e).shard.map = s.shard.map.erase k := rfl
@[simp] theorem counters_erase :
    (s.eraseEntryLocked k e).counters = s.counters.subMemory e.bytes := rfl
@[simp] theorem shard_expire :
    (s.expireLocked k e).shard = (s.eraseEntryLocked k e).shard := rfl
@[simp] theorem counters_expire :
    (s.expireLocked k e).counters = (s.counters.subMemory e.bytes).expired := rfl

end Locked

/-! ## What each function does to the recency list -/

namespace Locked
variable {P} {s : Locked Key Value} {xs : RecencyList Key (Record Value)} {k : Key}
  {e : Entry Value}

/-- Splicing to the front an entry whose other fields were just assigned. -/
theorem holds_assign (H : s.shard.Holds P xs) (he : s.shard.map.lookup k = some e)
    {e' : Entry Value} (hpos : e'.lruPos = e.lruPos)
    (hbytes : e'.bytes = P.estimateEntryBytes k e'.value) :
    (s.touchLruLocked k e').shard.Holds P (xs.insert k e'.record) := by
  let stored : Entry Value := { e' with lruPos := (s.shard.lru.spliceFront e'.lruPos).begin }
  have hlisted := H.listed.spliceFront he (show stored.lruPos = _ by rw [← hpos])
  rw [← hpos] at hlisted
  exact .of_listed hlisted (H.bytes_insert (show stored.bytes = _ from hbytes))

theorem holds_touch (H : s.shard.Holds P xs) (he : s.shard.map.lookup k = some e) :
    (s.touchLruLocked k e).shard.Holds P (RecencyList.touch k xs) := by
  have h := holds_assign H he (rfl : e.lruPos = e.lruPos) (H.bytes k e he)
  simpa only [RecencyList.touch, H.lookup_some he] using h

theorem holds_erase (H : s.shard.Holds P xs) (he : s.shard.map.lookup k = some e) :
    (s.eraseEntryLocked k e).shard.Holds P (xs.erase k) :=
  .of_listed (H.listed.erase he) fun j f hf => H.bytes j f (AList.lookup_of_lookup_erase hf).2

theorem holds_expire (H : s.shard.Holds P xs) (he : s.shard.map.lookup k = some e) :
    (s.expireLocked k e).shard.Holds P (xs.erase k) := holds_erase H he

theorem record_stored (v : Value) (ttl : Option Millis) (now : TimePoint) (pos bytes : ℕ) :
    Entry.record ⟨v, ttl.isSome, (ttl.map (expiryAt now)).getD 0, pos, bytes⟩
      = storedRecord v ttl now := by
  cases ttl <;> rfl

theorem holds_overwrite (H : s.shard.Holds P xs) (he : s.shard.map.lookup k = some e) (v : Value)
    (ttl : Option Millis) (now : TimePoint) :
    (s.overwriteLocked P k v ttl now e).shard.Holds P (xs.insert k (storedRecord v ttl now)) := by
  rw [← record_stored v ttl now e.lruPos (P.estimateEntryBytes k v)]
  exact holds_assign (s := s.count (Counters.subMemory e.bytes)) H he rfl rfl

theorem holds_insert (H : s.shard.Holds P xs) (hk : s.shard.map.lookup k = none) (v : Value)
    (ttl : Option Millis) (now : TimePoint) :
    (s.insertLocked P k v ttl now).shard.Holds P (xs.insert k (storedRecord v ttl now)) := by
  let lru := s.shard.lru.pushFront k
  let stored : Entry Value := ⟨v, ttl.isSome, (ttl.map (expiryAt now)).getD 0, lru.begin,
    P.estimateEntryBytes k v⟩
  rw [← record_stored v ttl now lru.begin (P.estimateEntryBytes k v)]
  have hlisted := H.listed.pushFront hk (show stored.lruPos = _ from rfl)
  exact .of_listed hlisted (H.bytes_insert (show stored.bytes = _ from rfl))

/-! ## The eviction loop -/

theorem evictLoop_of_le (h : s.shard.map.card ≤ s.shard.capacity) (fuel : ℕ) :
    evictLoop fuel s = s := by
  cases fuel with
  | zero => rfl
  | succ fuel => simp only [evictLoop, Nat.not_lt.mpr h, if_false]

/-- Nothing is evicted from a shard within its capacity. -/
theorem evictIfNeeded_of_le (h : s.shard.map.card ≤ s.shard.capacity) :
    s.evictIfNeededLocked = s := evictLoop_of_le h _

/-- The body evicts the key at the back. -/
theorem evictBody_eq {z : Key} {f : Entry Value} (hback : s.shard.lru.back? = some z)
    (hf : s.shard.map.lookup z = some f) :
    s.evictBody = some ((s.eraseEntryLocked z f).count Counters.evicted) := by
  simp only [evictBody, hback, Option.map_some, hf]

/-- One entry over capacity: the loop evicts the oldest key and stops. -/
theorem evictIfNeeded_of_succ (H : s.shard.Holds P xs)
    (h : s.shard.map.card = s.shard.capacity + 1) :
    ∃ z f, RecencyList.oldest? xs = some z ∧ s.shard.map.lookup z = some f ∧
      s.evictIfNeededLocked = (s.eraseEntryLocked z f).count Counters.evicted := by
  have hcard : 0 < xs.card := by
    rw [← H.card_eq]
    omega
  obtain ⟨z, f, hz, hback, hf⟩ := H.listed.exists_back hcard
  refine ⟨z, f, hz, hf, ?_⟩
  have hafter : ((s.eraseEntryLocked z f).count Counters.evicted).shard.map.card
      ≤ ((s.eraseEntryLocked z f).count Counters.evicted).shard.capacity := by
    have hcard := AList.card_erase hf
    simp only [shard_count, map_erase, capacity_erase]
    omega
  have hover : s.shard.capacity < s.shard.map.card := by omega
  obtain ⟨fuel, hfuel⟩ : ∃ fuel, s.shard.map.card + s.shard.lru.toList.length = fuel + 1 :=
    ⟨s.shard.capacity + s.shard.lru.toList.length, by omega⟩
  simp only [evictIfNeededLocked, hfuel, evictLoop, hover, if_true, evictBody_eq hback hf]
  exact evictLoop_of_le hafter fuel

/-- **Everything `set_impl` can do** to a shard within its capacity: refuse because there is none,
overwrite, insert into free room, or insert and evict the oldest key. -/
theorem setImpl_cases (H : s.shard.Holds P xs) (hcard : xs.card ≤ s.shard.capacity) (k : Key)
    (v : Value) (ttl : Option Millis) (now : TimePoint) :
    (s.shard.capacity = 0 ∧ s.setImpl P k v ttl now = (false, s)) ∨
    (0 < s.shard.capacity ∧ ∃ e, s.shard.map.lookup k = some e ∧
      s.setImpl P k v ttl now = (true, s.overwriteLocked P k v ttl now e)) ∨
    (s.shard.map.lookup k = none ∧ xs.card < s.shard.capacity ∧
      s.setImpl P k v ttl now = (true, s.insertLocked P k v ttl now)) ∨
    (s.shard.map.lookup k = none ∧ 0 < s.shard.capacity ∧ xs.card = s.shard.capacity ∧
      ∃ z f, RecencyList.oldest? xs = some z ∧ z ≠ k ∧ s.shard.map.lookup z = some f ∧
        s.setImpl P k v ttl now =
          (true, ((s.insertLocked P k v ttl now).eraseEntryLocked z f).count
            Counters.evicted)) := by
  by_cases hcap : s.shard.capacity = 0
  · exact .inl ⟨hcap, by simp only [setImpl, hcap, if_true]⟩
  · have hpos : 0 < s.shard.capacity := Nat.pos_of_ne_zero hcap
    cases hk : s.shard.map.lookup k with
    | some e =>
        refine .inr (.inl ⟨hpos, e, rfl, ?_⟩)
        have Hs := holds_overwrite H hk v ttl now
        have hc : (s.overwriteLocked P k v ttl now e).shard.map.card ≤ s.shard.capacity := by
          rw [Hs.card_eq, AList.card_insert_of_lookup (H.lookup_some hk)]
          exact hcard
        simp only [setImpl, hcap, if_false, hk]
        rw [evictIfNeeded_of_le hc]
    | none =>
        have Hs := holds_insert H hk v ttl now
        have hx := H.lookup_none hk
        have hc := AList.card_insert_of_lookup_none hx (storedRecord v ttl now)
        rw [← Hs.card_eq] at hc
        by_cases hfull : xs.card = s.shard.capacity
        · refine .inr (.inr (.inr ⟨rfl, hpos, hfull, ?_⟩))
          obtain ⟨z, f, hz, hf, hev⟩ := evictIfNeeded_of_succ Hs (by rw [hc, hfull]; rfl)
          have hcard : 0 < xs.card := by omega
          obtain ⟨y, hy⟩ := RecencyList.oldest?_isSome hcard
          obtain rfl : y = z := by
            have hlast := RecencyList.oldest?_insert hy hx (storedRecord v ttl now)
            rw [hz, Option.some.injEq] at hlast
            exact hlast.symm
          have hzk := RecencyList.ne_of_oldest? hy hx
          have hf' : s.shard.map.lookup y = some f := by
            have hins : (s.insertLocked P k v ttl now).shard.map.lookup y
                = s.shard.map.lookup y := AList.lookup_insert_ne hzk
            rwa [hins] at hf
          refine ⟨y, f, hy, hzk, hf', ?_⟩
          simp only [setImpl, hcap, if_false, hk]
          rw [hev]
        · refine .inr (.inr (.inl ⟨rfl, by omega, ?_⟩))
          have hle : (s.insertLocked P k v ttl now).shard.map.card
              ≤ (s.insertLocked P k v ttl now).shard.capacity := by
            rw [hc]
            change xs.card + 1 ≤ s.shard.capacity
            omega
          simp only [setImpl, hcap, if_false, hk]
          rw [evictIfNeeded_of_le hle]

theorem holds_evicted {z : Key} {f : Entry Value} (H : s.shard.Holds P xs)
    (hz : s.shard.map.lookup z = some f) :
    ((s.eraseEntryLocked z f).count Counters.evicted).shard.Holds P (xs.erase z) :=
  holds_erase H hz

/-- `set_impl` writes its record to the recency list and keeps the bound. -/
theorem holds_setImpl (H : s.shard.Holds P xs) (hcard : xs.card ≤ s.shard.capacity) (k : Key)
    (v : Value) (ttl : Option Millis) (now : TimePoint) (hpos : 0 < s.shard.capacity) :
    (s.setImpl P k v ttl now).1 = true ∧
      (s.setImpl P k v ttl now).2.shard.Holds P
        (RecencyList.put s.shard.capacity k (storedRecord v ttl now) xs) := by
  rcases setImpl_cases H hcard k v ttl now with ⟨hcap, -⟩ | ⟨-, e, he, heq⟩ | ⟨hk, hroom, heq⟩ |
    ⟨hk, -, hfull, z, f, hz, hzk, hf, heq⟩
  · omega
  · rw [heq, RecencyList.put_of_lookup (H.lookup_some he) hcard]
    exact ⟨rfl, holds_overwrite H he v ttl now⟩
  · rw [heq, RecencyList.put_of_room (H.lookup_none hk) hroom]
    exact ⟨rfl, holds_insert H hk v ttl now⟩
  · rw [heq, RecencyList.put_of_full (H.lookup_none hk) hfull hz]
    have hf' : (s.insertLocked P k v ttl now).shard.map.lookup z = some f :=
      (AList.lookup_insert_ne hzk).trans hf
    exact ⟨rfl, holds_evicted (holds_insert H hk v ttl now) hf'⟩

/-! ## The clean-up walk -/

/-- The walk over the remaining entries `l`. A property that expiring one entry preserves is
preserved; the live records stay; and of the walked keys no expired one is left. -/
private theorem cleanup_walk (now : TimePoint) (I : Locked Key Value → Prop)
    (hI : ∀ s xs k e, s.shard.Holds P xs → s.shard.map.lookup k = some e →
      isExpired e now = true → I s → I (s.expireLocked k e)) :
    ∀ (l : List (Sigma fun _ : Key => Entry Value)) (s : Locked Key Value)
      (xs : RecencyList Key (Record Value)),
      l.NodupKeys → s.shard.Holds P xs → (∀ x ∈ l, s.shard.map.lookup x.1 = some x.2) → I s →
      ∃ ys, I (l.foldl (fun s x => if isExpired x.2 now then s.expireLocked x.1 x.2 else s) s) ∧
        (l.foldl (fun s x => if isExpired x.2 now then s.expireLocked x.1 x.2 else s)
          s).shard.Holds P ys ∧
        liveRecords now ys = liveRecords now xs ∧
        ∀ k r, ys.lookup k = some r →
          xs.lookup k = some r ∧ (r.expired now = true → k ∉ l.keys) := by
  intro l
  induction l with
  | nil =>
      intro s xs _ H _ hs
      exact ⟨xs, hs, H, rfl, fun k r hr => ⟨hr, by simp⟩⟩
  | cons x l ih =>
      intro s xs hnodup H hmem hs
      obtain ⟨hx, hnodup⟩ := List.nodupKeys_cons.mp hnodup
      have hlook := hmem x List.mem_cons_self
      have hrest : ∀ y ∈ l, y.1 ≠ x.1 := by
        intro y hy heq
        exact hx (heq ▸ List.mem_keys_of_mem hy)
      simp only [List.foldl_cons, List.keys_cons]
      by_cases hexp : isExpired x.2 now = true
      · simp only [hexp, if_true]
        obtain ⟨ys, hys, Hys, hlive, hsub⟩ := ih (s.expireLocked x.1 x.2) (xs.erase x.1) hnodup
          (holds_expire H hlook)
          (fun y hy => (AList.lookup_erase_ne (hrest y hy)).trans
            (hmem y (List.mem_cons_of_mem _ hy)))
          (hI s xs x.1 x.2 H hlook hexp hs)
        refine ⟨ys, hys, Hys, ?_, ?_⟩
        · rw [hlive]
          apply AList.filterEntries_erase (H.lookup_some hlook)
          simp [expired_record, hexp]
        · intro k r hr
          obtain ⟨hk, hnot⟩ := hsub k r hr
          have hne : k ≠ x.1 := by
            rintro rfl
            simp at hk
          rw [AList.lookup_erase_ne hne] at hk
          exact ⟨hk, fun hr => by simpa [hne] using hnot hr⟩
      · simp only [hexp, Bool.false_eq_true, if_false]
        obtain ⟨ys, hys, Hys, hlive, hsub⟩ := ih s xs hnodup H
          (fun y hy => hmem y (List.mem_cons_of_mem _ hy)) hs
        refine ⟨ys, hys, Hys, hlive, ?_⟩
        intro k r hr
        obtain ⟨hk, hnot⟩ := hsub k r hr
        refine ⟨hk, fun hr' => ?_⟩
        have hne : k ≠ x.1 := by
          rintro rfl
          rw [H.lookup_some hlook, Option.some.injEq] at hk
          subst hk
          rw [expired_record] at hr'
          exact hexp hr'
        simpa [hne] using hnot hr'

/-- **The clean-up of one shard** removes exactly the expired records, keeps the order of the
others, and preserves whatever expiring one entry preserves. -/
theorem holds_cleanup (now : TimePoint) (I : Locked Key Value → Prop)
    (hI : ∀ s xs k e, s.shard.Holds P xs → s.shard.map.lookup k = some e →
      isExpired e now = true → I s → I (s.expireLocked k e))
    (H : s.shard.Holds P xs) (hs : I s) :
    I (s.cleanupLocked now) ∧ (s.cleanupLocked now).shard.Holds P (liveRecords now xs) := by
  obtain ⟨ys, hys, Hys, hlive, hsub⟩ := cleanup_walk now I hI s.shard.map.entries s xs
    s.shard.map.nodupKeys H (fun x hx => AList.mem_lookup_iff.mpr hx) hs
  have hall : liveRecords now ys = ys := by
    apply AList.filterEntries_eq_self
    intro k r hr
    obtain ⟨hk, hnot⟩ := hsub k r hr
    obtain ⟨e, he, -⟩ := H.exists_entry hk
    have hkey : k ∈ s.shard.map.entries.keys :=
      List.mem_keys_of_mem (AList.mem_lookup_iff.mp he)
    cases hexp : r.expired now with
    | false => rfl
    | true => exact absurd hkey (hnot hexp)
  rw [← hlive, hall]
  exact ⟨hys, Hys⟩

end Locked
end MiniRedis
