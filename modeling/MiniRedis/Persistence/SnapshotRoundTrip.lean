import MiniRedis.Lib.ReplayRoom
import MiniRedis.Persistence.Encoding
import MiniRedis.Server.TtlRange

/-!
# A snapshot and its reload

A snapshot lists the entries that do not expire and those with at least a millisecond left, with the
milliseconds they have left. Replayed into an empty cache of the same capacity it evicts nothing and
restores just these, each with the same value and a new deadline that is less than a millisecond too
early. The deadline is computed in 64 bits: a rest of a ttl that does not fit behind the time of the
reload wraps around, and then the entry is expired when it is restored.
-/
namespace MiniRedis
variable {M : Platform}

/-! ## What is restored -/

section Reload
variable {Key Value : Type} [DecidableEq Key] {P : CacheParams Key Value}

/-- The record of a key, expired or not. -/
def ShardedCache.stored (c : ShardedCache P) (k : Key) : Option (Record Value) :=
  ((c.shards (shardForKey P k)).map.lookup k).map Entry.record

theorem ShardedCache.Rep.stored_eq {c : ShardedCache P}
    {xs : Fin P.numShards → RecencyList Key (Record Value)} (R : c.Rep xs) (k : Key) :
    c.stored k = (xs (shardForKey P k)).lookup k := (R.holds _).records k

/-- The record has no deadline, or at least a millisecond left. -/
def Record.Lasting (now : ℤ) (r : Record Value) : Prop :=
  ∀ e : ℤ, r.deadline = some e → now + nsPerMs ≤ e

end Reload

/-- The text of a snapshot. -/
def ShardedCache.snapshotFile (ord : HashOrder Bytes Bytes) (t : Instant)
    (c : ShardedCache M.params) : Bytes := snapshotText t.epochMs (c.snapshotItems ord t.now)

/-- A cache of the same capacity that is filled from a snapshot. -/
def ShardedCache.reloaded (ord : HashOrder Bytes Bytes) (t : Instant) (clock : ℕ → TimePoint)
    (c : ShardedCache M.params) : ShardedCache M.params :=
  replayFile clock (c.snapshotFile ord t) (ShardedCache.construct M.params c.maxKeys)

/-- A deadline, as it is restored at `start`: as far away as it was at `now`, but for less than a
millisecond. -/
def Restores (now start e e' : ℤ) : Prop :=
  start + (e - now) - nsPerMs < e' ∧ e' ≤ start + (e - now)

/-- The snapshot written at `t` and replayed with the readings `clock` restores the lasting entries
and no others. -/
structure RoundTrip (ord : HashOrder Bytes Bytes) (t : Instant) (clock : ℕ → TimePoint)
    (c : ShardedCache M.params) : Prop where
  evictions : (c.reloaded ord t clock).counters.evictions = 0
  /-- The value is the same, and what is left of the time is cut down to milliseconds. -/
  restored : ∀ key r, c.stored key = some r → r.Lasting t.now →
    ∃ i ttl r', (readBack (c.snapshotFile ord t))[i]? = some (.set key r.value ttl) ∧
      (c.reloaded ord t clock).stored key = some r' ∧ r'.value = r.value ∧
      Option.Rel (Restores t.now (clock i)) r.deadline r'.deadline
  only : ∀ key r', (c.reloaded ord t clock).stored key = some r' →
    ∃ r, c.stored key = some r ∧ r.Lasting t.now

/-- No deadline leaves the range of the clock: neither does the time that a lasting entry has left,
nor the end of that time, cut down to milliseconds, after the reading at which the line of its key is
replayed. -/
structure FitsClock (ord : HashOrder Bytes Bytes) (t : Instant) (clock : ℕ → TimePoint)
    (c : ShardedCache M.params) : Prop where
  left : ∀ key r, c.stored key = some r → r.Lasting t.now →
    ∀ e : ℤ, r.deadline = some e → e - t.now < 2 ^ 63
  deadline : ∀ i item, (c.snapshotItems ord t.now)[i]? = some item →
    ∀ r, c.stored item.key = some r → ∀ e : ℤ, r.deadline = some e →
      clock i + (e - t.now).tdiv nsPerMs * nsPerMs < 2 ^ 63

/-! ## Deadlines of reachable caches -/

/-- All deadlines are readings of the clock. -/
def DeadlinesFit {n : ℕ} (xs : Fin n → RecencyList Bytes (Record Bytes)) : Prop :=
  ∀ i k r, (xs i).lookup k = some r → ∀ e : ℤ, r.deadline = some e → e < 2 ^ 63

theorem deadline_storedRecord_lt {value : Bytes} {ttl : Option Millis} {now : TimePoint} {e : ℤ}
    (h : (storedRecord value ttl now).deadline = some e) : e < 2 ^ 63 := by
  obtain ⟨d, -, rfl⟩ := Option.map_eq_some_iff.mp h
  exact wrap64_lt _

theorem DeadlinesFit.update {n : ℕ} {xs : Fin n → RecencyList Bytes (Record Bytes)}
    (h : DeadlinesFit xs) {i : Fin n} {zs : RecencyList Bytes (Record Bytes)}
    (hzs : ∀ k r, zs.lookup k = some r →
      (xs i).lookup k = some r ∨ ∀ e : ℤ, r.deadline = some e → e < 2 ^ 63) :
    DeadlinesFit (Function.update xs i zs) := by
  intro j k r hr
  by_cases hj : j = i
  · subst hj
    rw [Function.update_self] at hr
    exact (hzs k r hr).elim (h j k r) id
  · rw [Function.update_of_ne hj] at hr
    exact h j k r hr

theorem Processor.Reachable.deadlinesFit {capacity : ℕ} {p : Processor M}
    (hp : p.Reachable capacity) : ∃ xs, p.cache.Rep xs ∧ DeadlinesFit xs := by
  induction hp with
  | start clock snapshot aof =>
      refine ⟨_, rep_recoverFromDisk_timed capacity clock snapshot aof, ?_⟩
      intro i k r hr
      rcases WriteLog.lookup_replay hr with hlast | ⟨-, hnone⟩
      · have hmem := (List.mem_filter.mp (List.mem_of_getLast? hlast)).1
        obtain ⟨⟨now, w⟩, -, hwrite⟩ := List.mem_map.mp hmem
        cases w with
        | del key => cases hwrite
        | set key value ttl =>
            cases hwrite
            exact fun e he => deadline_storedRecord_lt he
      · cases hnone
  | set _ key value ttl now ih =>
      obtain ⟨xs, R, hxs⟩ := ih
      refine ⟨_, R.set key value ttl now, hxs.update fun k r hr => ?_⟩
      rcases Write.lookup_apply (w := .put key (storedRecord value ttl now)) hr with hput | ⟨-, hold⟩
      · cases hput
        exact .inr fun e he => deadline_storedRecord_lt he
      · exact .inl hold
  | get _ key now ih =>
      obtain ⟨xs, R, hxs⟩ := ih
      exact ⟨_, R.get key now, hxs.update fun k r hr => .inl (lookup_of_lookedUp hr)⟩
  | del _ key ih =>
      obtain ⟨xs, R, hxs⟩ := ih
      exact ⟨_, R.del key, hxs.update fun k r hr => .inl (AList.lookup_of_lookup_erase hr).2⟩
  | drain _ ih => exact ih
  | reap _ now shard ih =>
      obtain ⟨xs, R, hxs⟩ := ih
      exact ⟨_, R.cleanupShard now shard, hxs.update fun k r hr => .inl (lookup_of_liveRecords hr)⟩

/-! ## A replay with room -/

theorem evictions_applyWrite_of_lt {c : ShardedCache M.params}
    {xs : Fin M.params.numShards → RecencyList Bytes (Record Bytes)} (R : c.Rep xs)
    (now : TimePoint) {w : WriteCommand}
    (h : (xs (M.home w.key)).card < capacityOf M.params c.maxKeys (M.home w.key)) :
    (applyWrite now w c).counters.evictions = c.counters.evictions := by
  cases w with
  | del key => exact R.evictions_del key
  | set key value ttl =>
      have hcard := AList.card_insert_le (xs (M.home key)) key (storedRecord value ttl now)
      refine (R.evictions_set key value ttl now).trans ?_
      rw [if_neg, Nat.add_zero]
      rintro ⟨-, hover⟩
      exact absurd hover (not_lt.mpr (hcard.trans (Nat.succ_le_of_lt h)))

/-- **A replay that has room for all its lines evicts nothing.** Each line takes up at most one place
in its shard. -/
theorem evictions_replayCommands {c : ShardedCache M.params}
    {xs : Fin M.params.numShards → RecencyList Bytes (Record Bytes)} (R : c.Rep xs)
    {ws : List (TimePoint × WriteCommand)}
    (h : ∀ i, (xs i).card + (writesTo M i ws).length ≤ capacityOf M.params c.maxKeys i) :
    (replayCommands ws c).counters.evictions = c.counters.evictions := by
  induction ws generalizing c xs with
  | nil => rfl
  | cons x ws ih =>
      have hhead : (writesTo M (M.home x.2.key) (x :: ws)).length =
          (writesTo M (M.home x.2.key) ws).length + 1 := by
        simp [writesTo]
      have hroom := h (M.home x.2.key)
      rw [hhead] at hroom
      refine (ih (R.applyWrite x.1 x.2) fun i => ?_).trans
        (evictions_applyWrite_of_lt R x.1 (by omega))
      rw [maxKeys_applyWrite]
      by_cases hi : i = M.home x.2.key
      · subst hi
        rw [Function.update_self]
        have hfree : ((x.2.write x.1).applyFree (xs (M.home x.2.key))).card ≤
            (xs (M.home x.2.key)).card + 1 := WriteLog.card_applyFree_le
        rw [Write.apply_eq_applyFree (by omega)]
        omega
      · have hrest : writesTo M i (x :: ws) = writesTo M i ws := by
          have hne : ¬ M.home x.2.key = i := fun heq => hi heq.symm
          simp [writesTo, hne]
        rw [Function.update_of_ne hi, ← hrest]
        exact h i

/-! ## The items of a snapshot -/

/-- Whole milliseconds. -/
theorem tdiv_nsPerMs_pos_iff {x : ℤ} : 0 < x.tdiv nsPerMs ↔ nsPerMs ≤ x := by
  have hsign : Int.sign 1000000 = 1 := rfl
  rw [Int.tdiv_eq_ediv, nsPerMs, hsign]
  split <;> omega

/-- The milliseconds that a time is cut down to. -/
theorem tdiv_nsPerMs_mul {x : ℤ} (hx : 0 ≤ x) :
    x - nsPerMs < x.tdiv nsPerMs * nsPerMs ∧ x.tdiv nsPerMs * nsPerMs ≤ x := by
  rw [Int.tdiv_eq_ediv_of_nonneg hx]
  unfold nsPerMs
  omega

section Items
variable {c : ShardedCache M.params} {xs : Fin M.params.numShards → RecencyList Bytes (Record Bytes)}
  {ord : HashOrder Bytes Bytes} {now : ℤ} {key : Bytes} {r : Record Bytes}
  {item : SnapshotItem Bytes Bytes}

theorem Record.lasting_of_item? (h : r.item? now key = some item) : r.Lasting now := by
  intro e he
  unfold Record.item? at h
  rw [he] at h
  split at h
  · cases h
  · next hlive =>
    dsimp only at h
    split at h
    · cases h
    · next hpos =>
      have hahead : now < e := by simpa [Record.expired, he] using hlive
      have hns := tdiv_nsPerMs_pos_iff.mp (not_le.mp hpos)
      have hle := wrap64_le (x := e - now) (by omega)
      omega

/-- What the snapshot shows of an entry that is to be restored. -/
theorem Record.item?_of_lasting (h : r.Lasting now)
    (hleft : ∀ e : ℤ, r.deadline = some e → e - now < 2 ^ 63) (key : Bytes) :
    r.item? now key = some ⟨key, r.value, r.deadline.map fun e => (e - now).tdiv nsPerMs⟩ := by
  cases hdeadline : r.deadline with
  | none => simp [Record.item?, Record.expired, hdeadline]
  | some e =>
      have hlong : now + nsPerMs ≤ e := h e hdeadline
      have hfits := hleft e hdeadline
      have hns : (0 : ℤ) < nsPerMs := by decide
      have hexact : wrap64 (e - now) = e - now := wrap64_eq (by omega) hfits
      have hpos := tdiv_nsPerMs_pos_iff.mpr (by omega : nsPerMs ≤ e - now)
      have hlive : ¬ e ≤ now := not_le.mpr (lt_of_lt_of_le (lt_add_of_pos_right now hns) hlong)
      simp [Record.item?, Record.expired, hdeadline, hexact, hlive, not_le.mpr hpos]

theorem Record.key_item? (h : r.item? now key = some item) : item.key = key := by
  unfold Record.item? at h
  split at h
  · cases h
  · split at h
    · dsimp only at h
      split at h
      · cases h
      · cases h
        rfl
    · cases h
      rfl

/-- **The items of a snapshot** are those of the stored records. -/
theorem mem_snapshotItems_iff (R : c.Rep xs) :
    item ∈ c.snapshotItems ord now ↔
      ∃ r, c.stored item.key = some r ∧ r.item? now item.key = some item := by
  simp only [ShardedCache.snapshotItems, List.mem_flatMap, List.mem_filterMap, List.mem_finRange,
    true_and, snapshotItem_eq]
  constructor
  · rintro ⟨i, x, hx, hitem⟩
    have hkey := Record.key_item? hitem
    have hentry : (c.shards i).map.lookup x.1 = some x.2 :=
      AList.mem_lookup_iff.mpr ((ord.perm _).mem_iff.mp hx)
    refine ⟨x.2.record, ?_, hkey ▸ hitem⟩
    rw [hkey, ShardedCache.stored, R.lookup_home hentry, hentry]
    rfl
  · rintro ⟨r, hr, hitem⟩
    obtain ⟨e, he, rfl⟩ := Option.map_eq_some_iff.mp hr
    exact ⟨_, ⟨item.key, e⟩, (ord.perm _).mem_iff.mpr (AList.mem_lookup_iff.mp he), hitem⟩

theorem keys_filterMap_sublist (now : ℤ) (l : List (Sigma fun _ : Bytes => Entry Bytes)) :
    ((l.filterMap (ShardedCache.snapshotItem now)).map SnapshotItem.key).Sublist l.keys := by
  induction l with
  | nil => exact .slnil
  | cons x l ih =>
      cases hitem : ShardedCache.snapshotItem now x with
      | none =>
          rw [List.filterMap_cons_none hitem]
          exact ih.cons x.1
      | some item =>
          rw [List.filterMap_cons_some hitem, List.map_cons, (shows_of_snapshotItem hitem).1]
          exact ih.cons_cons x.1

/-- No key is in a snapshot twice. -/
theorem nodup_keys_snapshotItems (R : c.Rep xs) :
    ((c.snapshotItems ord now).map SnapshotItem.key).Nodup := by
  rw [List.nodup_iff_count_le_one]
  intro k
  -- an item of this key is an item of its shard, and there it is one of the list
  have hshard : (c.snapshotItems ord now).countP (fun item => item.key == k) =
      ((c.snapshotItems ord now).filter fun item => shardForKey M.params item.key = M.home k).countP
        fun item => item.key == k := by
    rw [List.countP_filter]
    refine List.countP_congr fun item _ => ?_
    simp only [beq_iff_eq, Bool.and_eq_true, decide_eq_true_eq]
    exact ⟨fun h => ⟨h, h ▸ rfl⟩, fun h => h.1⟩
  have hnodup : (ord.order (c.shards (M.home k)).map).keys.Nodup :=
    ((ord.perm _).map Sigma.fst).nodup_iff.mpr (c.shards (M.home k)).map.nodupKeys
  have hcount := List.nodup_iff_count_le_one.mp (hnodup.sublist (keys_filterMap_sublist now _)) k
  rw [List.count, List.countP_map] at hcount ⊢
  rw [← R.snapshotItems_filter_home ord now (M.home k)] at hcount
  exact hshard.trans_le hcount

theorem index_unique (R : c.Rep xs) {i j : ℕ} {item' : SnapshotItem Bytes Bytes}
    (hi : (c.snapshotItems ord now)[i]? = some item)
    (hj : (c.snapshotItems ord now)[j]? = some item') (hkey : item.key = item'.key) : i = j := by
  have hlt : i < ((c.snapshotItems ord now).map SnapshotItem.key).length := by
    rw [List.length_map]
    exact (List.getElem?_eq_some_iff.mp hi).1
  refine (List.getElem?_inj hlt (nodup_keys_snapshotItems R)).mp ?_
  rw [List.getElem?_map, List.getElem?_map, hi, hj, Option.map_some, Option.map_some, hkey]

end Items

/-! ## The reload -/

section Replay
variable {c : ShardedCache M.params} {xs : Fin M.params.numShards → RecencyList Bytes (Record Bytes)}
  {ord : HashOrder Bytes Bytes} {t : Instant} {clock : ℕ → TimePoint}

theorem mem_timed_iff {ws : List WriteCommand} {x : TimePoint × WriteCommand} :
    x ∈ timed clock ws ↔ ∃ i w, ws[i]? = some w ∧ x = (clock i, w) := by
  simp only [timed, List.mem_iff_getElem?, List.getElem?_mapIdx, Option.map_eq_some_iff]
  constructor
  · rintro ⟨i, w, hw, rfl⟩
    exact ⟨i, w, hw, rfl⟩
  · rintro ⟨i, w, hw, rfl⟩
    exact ⟨i, w, hw, rfl⟩

/-- The lines about the keys of a shard are no more than its entries. -/
theorem length_writesTo_le (R : c.Rep xs) (i : Fin M.params.numShards) :
    (writesTo M i (timed clock ((c.snapshotItems ord t.now).map SnapshotItem.command))).length ≤
      capacityOf M.params c.maxKeys i := by
  have hitems : (writesTo M i (timed clock ((c.snapshotItems ord t.now).map
      SnapshotItem.command))).length =
        ((c.snapshotItems ord t.now).filter fun item => shardForKey M.params item.key = i).length := by
    rw [writesTo, List.length_map, ← List.length_map (f := Prod.snd)]
    change (((timed clock _).filter ((fun w => decide (M.home w.key = i)) ∘ Prod.snd)).map
      Prod.snd).length = _
    rw [← List.filter_map, map_snd_timed, List.filter_map, List.length_map]
    rfl
  rw [hitems, R.snapshotItems_filter_home, (R.items_perm ord t.now i).length_eq]
  exact (List.length_filterMap_le _ _).trans (R.card_le_capacityOf i)

/-- The file is read back as a `SET` for each item. -/
theorem readBack_snapshotFile (R : c.Rep xs)
    (hstored : ∀ key r, c.stored key = some r → Storable key ∧ Storable r.value) :
    readBack (c.snapshotFile ord t) = (c.snapshotItems ord t.now).map SnapshotItem.command := by
  refine readBack_snapshotText (fun item hitem => ?_) t.epochMs
  obtain ⟨r, hr, hshows⟩ := R.shows hitem
  rw [← R.stored_eq] at hr
  obtain ⟨hkey, hvalue⟩ := hstored item.key r hr
  exact ⟨hkey, hshows.value ▸ hvalue, fun d hd => ⟨(hshows.pos d hd).le, hshows.ttl_lt hd⟩⟩

theorem evictions_reloaded (R : c.Rep xs)
    (hstored : ∀ key r, c.stored key = some r → Storable key ∧ Storable r.value) :
    (c.reloaded ord t clock).counters.evictions = 0 := by
  rw [ShardedCache.reloaded, replayFile, readBack_snapshotFile R hstored]
  refine evictions_replayCommands (ShardedCache.Rep.construct c.maxKeys) fun i => ?_
  rw [AList.card_empty, Nat.zero_add]
  exact length_writesTo_le R i

/-- The writes to a shard are those of the items with a key of the shard. -/
theorem mem_writesTo_items_iff {i : Fin M.params.numShards} {v : Write Bytes (Record Bytes)} :
    v ∈ writesTo M i (timed clock ((c.snapshotItems ord t.now).map SnapshotItem.command)) ↔
      ∃ j item, (c.snapshotItems ord t.now)[j]? = some item ∧ M.home item.key = i ∧
        v = .put item.key (storedRecord item.value item.ttlRemaining (clock j)) := by
  simp only [writesTo, List.mem_map, List.mem_filter, mem_timed_iff, List.getElem?_map,
    Option.map_eq_some_iff, decide_eq_true_eq]
  constructor
  · rintro ⟨-, ⟨⟨j, -, ⟨item, hitem, rfl⟩, rfl⟩, hhome⟩, rfl⟩
    exact ⟨j, item, hitem, hhome, rfl⟩
  · rintro ⟨j, item, hitem, hhome, rfl⟩
    exact ⟨_, ⟨⟨j, _, ⟨item, hitem, rfl⟩, rfl⟩, hhome⟩, rfl⟩

/-- There is room for all lines, so the last one about a key tells what is stored. -/
theorem stored_reloaded (R : c.Rep xs)
    (hstored : ∀ key r, c.stored key = some r → Storable key ∧ Storable r.value) (key : Bytes) :
    (c.reloaded ord t clock).stored key = WriteLog.standing key (writesTo M (M.home key)
      (timed clock ((c.snapshotItems ord t.now).map SnapshotItem.command))) := by
  have R' := (ShardedCache.Rep.construct (P := M.params) c.maxKeys).replayCommands
    (timed clock ((c.snapshotItems ord t.now).map SnapshotItem.command))
  rw [ShardedCache.reloaded, replayFile, readBack_snapshotFile R hstored, R'.stored_eq,
    ← WriteLog.lookup_contents]
  refine congrArg _ (WriteLog.replay_eq_contents fun vs hvs => ?_)
  exact (WriteLog.card_contents_le_length vs).trans
    (hvs.length_le.trans (length_writesTo_le R (M.home key)))

/-- **What the reload stores** comes from the item of the key, at the reading of its line. -/
theorem stored_reloaded_iff (R : c.Rep xs)
    (hstored : ∀ key r, c.stored key = some r → Storable key ∧ Storable r.value) {key : Bytes}
    {r' : Record Bytes} : (c.reloaded ord t clock).stored key = some r' ↔
      ∃ i item, (c.snapshotItems ord t.now)[i]? = some item ∧ item.key = key ∧
        r' = storedRecord item.value item.ttlRemaining (clock i) := by
  rw [stored_reloaded R hstored, WriteLog.standing]
  constructor
  · intro h
    split at h
    · next b hlast =>
      cases h
      obtain ⟨hmem, hkey⟩ := List.mem_filter.mp (List.mem_of_getLast? hlast)
      obtain ⟨i, item, hitem, -, heq⟩ := mem_writesTo_items_iff.mp hmem
      cases heq
      exact ⟨i, item, hitem, of_decide_eq_true hkey, rfl⟩
    · cases h
  · rintro ⟨i, item, hitem, rfl, rfl⟩
    -- no other line is about this key
    have honly : ∀ v ∈ writesTo M (M.home item.key)
        (timed clock ((c.snapshotItems ord t.now).map SnapshotItem.command)), v.key = item.key →
          v = .put item.key (storedRecord item.value item.ttlRemaining (clock i)) := by
      intro v hv hvkey
      obtain ⟨j, item', hitem', -, rfl⟩ := mem_writesTo_items_iff.mp hv
      have hj := index_unique R hitem hitem' hvkey.symm
      subst hj
      rw [hitem] at hitem'
      cases hitem'
      rfl
    rw [WriteLog.lastWrite_of_forall (k := item.key) _
      (mem_writesTo_items_iff.mpr ⟨i, item, hitem, rfl, rfl⟩) rfl honly]

end Replay

/-! ## The round trip -/

section RoundTrip
variable {c : ShardedCache M.params} {xs : Fin M.params.numShards → RecencyList Bytes (Record Bytes)}
  {ord : HashOrder Bytes Bytes} {t : Instant} {clock : ℕ → TimePoint}

/-- Only lasting entries are restored, whatever the clock shows. -/
theorem lasting_of_reloaded (R : c.Rep xs)
    (hstored : ∀ key r, c.stored key = some r → Storable key ∧ Storable r.value) {key : Bytes}
    {r' : Record Bytes} (h : (c.reloaded ord t clock).stored key = some r') :
    ∃ r, c.stored key = some r ∧ r.Lasting t.now := by
  obtain ⟨i, item, hitem, rfl, -⟩ := (stored_reloaded_iff R hstored).mp h
  obtain ⟨r, hr, hshown⟩ := (mem_snapshotItems_iff R).mp (List.mem_of_getElem? hitem)
  exact ⟨r, hr, Record.lasting_of_item? hshown⟩

/-- A deadline that fits is restored. -/
theorem restores_expiryAt {now start e : ℤ} (hstart : Representable start)
    (he : now + nsPerMs ≤ e)
    (hfits : start + (e - now).tdiv nsPerMs * nsPerMs < 2 ^ 63) :
    Restores now start e (expiryAt start ((e - now).tdiv nsPerMs)) := by
  have hns : (0 : ℤ) < nsPerMs := by decide
  obtain ⟨hlow, hhigh⟩ := tdiv_nsPerMs_mul (x := e - now) (by omega)
  have hexact : expiryAt start ((e - now).tdiv nsPerMs) =
      start + (e - now).tdiv nsPerMs * nsPerMs := by
    rw [expiryAt_eq]
    exact wrap64_eq (by have := hstart.1; omega) hfits
  rw [hexact]
  exact ⟨by omega, by omega⟩

/-- A deadline that does not fit is not. -/
theorem not_restores_expiryAt {now start e : ℤ} (hstart : Representable start)
    (he : now + nsPerMs ≤ e) (hleft : e - now < 2 ^ 63)
    (hover : 2 ^ 63 ≤ start + (e - now).tdiv nsPerMs * nsPerMs) :
    ¬ Restores now start e (expiryAt start ((e - now).tdiv nsPerMs)) := by
  rintro ⟨hlow, -⟩
  have hns : (0 : ℤ) < nsPerMs ∧ nsPerMs < 2 ^ 64 := by decide
  have hcut := (tdiv_nsPerMs_mul (x := e - now) (by omega)).2
  have hstart := hstart.2
  have hwrapped := wrap64_of_le hover (by omega)
  rw [expiryAt_eq, hwrapped] at hlow
  omega

/-- If nothing leaves the range of the clock, the lasting entries are restored. -/
theorem roundTrip_of_fitsClock (R : c.Rep xs)
    (hstored : ∀ key r, c.stored key = some r → Storable key ∧ Storable r.value)
    (hclock : ∀ i, Representable (clock i)) (h : FitsClock ord t clock c) :
    RoundTrip ord t clock c := by
  refine ⟨evictions_reloaded R hstored, ?_, fun key r' hr' => lasting_of_reloaded R hstored hr'⟩
  intro key r hr hlasting
  let left := r.deadline.map fun e => (e - t.now).tdiv nsPerMs
  have hshown := Record.item?_of_lasting hlasting (h.left key r hr hlasting) key
  have hmem : ⟨key, r.value, left⟩ ∈ c.snapshotItems ord t.now :=
    (mem_snapshotItems_iff R).mpr ⟨r, hr, hshown⟩
  obtain ⟨i, hitem⟩ := List.mem_iff_getElem?.mp hmem
  have hreloaded : (c.reloaded ord t clock).stored key =
      some (storedRecord r.value left (clock i)) :=
    (stored_reloaded_iff R hstored).mpr ⟨i, _, hitem, rfl, rfl⟩
  refine ⟨i, left, storedRecord r.value left (clock i), ?_, hreloaded, rfl, ?_⟩
  · rw [readBack_snapshotFile R hstored, List.getElem?_map, hitem]
    rfl
  · cases hdeadline : r.deadline with
    | none =>
        simp only [storedRecord, left, hdeadline, Option.map_none]
        exact .none
    | some e =>
        have hms : left = some ((e - t.now).tdiv nsPerMs) := by simp only [left, hdeadline]; rfl
        simp only [storedRecord, hms]
        exact .some (restores_expiryAt (hclock i) (hlasting e hdeadline)
          (h.deadline i _ hitem r hr e hdeadline))

/-- What is left of the time of an entry in the snapshot. -/
theorem left_lt_of_mem (R : c.Rep xs) (hfit : DeadlinesFit xs) (hnow : Representable t.now)
    {item : SnapshotItem Bytes Bytes} (hitem : item ∈ c.snapshotItems ord t.now) {r : Record Bytes}
    (hr : c.stored item.key = some r) {e : ℤ} (he : r.deadline = some e) : e - t.now < 2 ^ 63 := by
  obtain ⟨r₂, hr₂, hshows⟩ := R.shows hitem
  rw [R.stored_eq, hr₂] at hr
  cases hr
  by_contra hover
  have hlt := hfit _ _ _ hr₂ e he
  have hlow := hnow.1
  have hpos := hshows.pos
  rw [hshows.ttl, he] at hpos
  have hns := tdiv_nsPerMs_pos_iff.mp (hpos _ rfl)
  have hwrapped := wrap64_of_le (x := e - t.now) (by omega) (by omega)
  have hmin : (0 : ℤ) < nsPerMs := by decide
  omega

/-- If the lasting entries are restored, nothing leaves the range of the clock: an entry with more
time left than that is not in the snapshot, and one whose new deadline wraps around is expired. -/
theorem fitsClock_of_roundTrip (R : c.Rep xs) (hfit : DeadlinesFit xs)
    (hstored : ∀ key r, c.stored key = some r → Storable key ∧ Storable r.value)
    (hnow : Representable t.now) (hclock : ∀ i, Representable (clock i))
    (h : RoundTrip ord t clock c) : FitsClock ord t clock c := by
  constructor
  · intro key r hr hlasting e he
    obtain ⟨i, ttl, r', -, hr', -⟩ := h.restored key r hr hlasting
    obtain ⟨j, item, hitem, rfl, -⟩ := (stored_reloaded_iff R hstored).mp hr'
    exact left_lt_of_mem R hfit hnow (List.mem_of_getElem? hitem) hr he
  · intro i item hitem r hr e he
    by_contra hover
    have hmem := List.mem_of_getElem? hitem
    obtain ⟨r₂, hr₂, hshown⟩ := (mem_snapshotItems_iff R).mp hmem
    rw [hr] at hr₂
    cases hr₂
    have hlasting := Record.lasting_of_item? hshown
    have hleft : ∀ e : ℤ, r.deadline = some e → e - t.now < 2 ^ 63 :=
      fun e he => left_lt_of_mem R hfit hnow hmem hr he
    -- the item shows the whole time that is left
    rw [Record.item?_of_lasting hlasting hleft] at hshown
    have hms := congrArg SnapshotItem.ttlRemaining (Option.some.inj hshown)
    rw [he] at hms
    obtain ⟨j, ttl, r', hread, hr', -, hrel⟩ := h.restored item.key r hr hlasting
    rw [readBack_snapshotFile R hstored, List.getElem?_map] at hread
    obtain ⟨item₁, hitem₁, hcommand⟩ := Option.map_eq_some_iff.mp hread
    obtain ⟨k, item₂, hitem₂, hkey₂, rfl⟩ := (stored_reloaded_iff R hstored).mp hr'
    -- both are the item of this key
    have hj := index_unique R hitem₁ hitem (congrArg WriteCommand.key hcommand)
    have hk := index_unique R hitem₂ hitem hkey₂
    subst hj hk
    rw [hitem] at hitem₂
    cases hitem₂
    simp only [storedRecord, ← hms, he, Option.map_some] at hrel
    cases hrel with
    | some hrestores =>
        exact not_restores_expiryAt (hclock k) (hlasting e he) (hleft e he) (not_lt.mp hover)
          hrestores

end RoundTrip

/-- **A snapshot of storable entries restores them if and only if no deadline leaves the range of the
clock**, in the snapshot and when it is replayed. -/
theorem roundTrip_iff {capacity : ℕ} {p : Processor M} (hp : p.Reachable capacity)
    (hstored : ∀ key r, p.cache.stored key = some r → Storable key ∧ Storable r.value)
    (ord : HashOrder Bytes Bytes) {t : Instant} (hnow : Representable t.now)
    {clock : ℕ → TimePoint} (hclock : ∀ i, Representable (clock i)) :
    RoundTrip ord t clock p.cache ↔ FitsClock ord t clock p.cache := by
  obtain ⟨xs, R, hfit⟩ := hp.deadlinesFit
  exact ⟨fitsClock_of_roundTrip R hfit hstored hnow hclock,
    roundTrip_of_fitsClock R hstored hclock⟩

namespace Processor

/-- A processor that stores the one entry `k` = `v`, set at time zero. -/
def storingOne (ttl : Millis) : Processor Platform.oneShard :=
  (fresh.set (ascii "k") (ascii "v") (some ttl) 0).2

theorem reachable_storingOne (ttl : Millis) : (storingOne ttl).Reachable 64 :=
  .set (.start stoppedClock [] []) _ _ _ 0

theorem storable_storingOne (ttl : Millis) (key : Bytes) (r : Record Bytes)
    (h : (storingOne ttl).cache.stored key = some r) : Storable key ∧ Storable r.value := by
  have R : fresh.cache.Rep fun _ => (∅ : RecencyList Bytes (Record Bytes)) :=
    ShardedCache.Rep.construct 64
  have R' := R.set (ascii "k") (ascii "v") (some ttl) 0
  have hlookup := (R'.stored_eq key).symm.trans h
  by_cases hhome : shardForKey Platform.oneShard.params key =
      shardForKey Platform.oneShard.params (ascii "k")
  · rw [hhome, Function.update_self] at hlookup
    rcases Write.lookup_apply (w := .put (ascii "k") (storedRecord (ascii "v") (some ttl) 0)) hlookup
      with hput | ⟨-, hnone⟩
    · have hkey : Storable (ascii "k") := by decide +kernel
      have hvalue : Storable (ascii "v") := by decide +kernel
      cases hput
      exact ⟨hkey, hvalue⟩
    · cases hnone
  · rw [Function.update_of_ne hhome] at hlookup
    cases hlookup

end Processor

theorem roundTrip_iff_second :
    RoundTrip .stored ⟨400000000, 0⟩ (fun _ => 7) (Processor.storingOne 1000).cache ↔
      FitsClock .stored ⟨400000000, 0⟩ (fun _ => 7) (Processor.storingOne 1000).cache :=
  have hnow : Representable 400000000 := by unfold Representable; omega
  have hclock : Representable 7 := by unfold Representable; omega
  roundTrip_iff (Processor.reachable_storingOne 1000) (Processor.storable_storingOne 1000) .stored
    hnow fun _ => hclock

/-- A ttl of 292 years fits when it is set. Reloaded a second later, the value is gone. -/
theorem long_ttl_lost :
    (¬ ∀ (capacity : ℕ) (p : Processor Platform.oneShard), p.Reachable capacity →
      (∀ key r, p.cache.stored key = some r → Storable key ∧ Storable r.value) →
      ∀ (ord : HashOrder Bytes Bytes) (t : Instant) (clock : ℕ → TimePoint),
        Representable t.now → (∀ i, Representable (clock i)) → (∀ i, t.now ≤ clock i) →
          RoundTrip ord t clock p.cache) ∧
      ((Processor.storingOne 9223372036854).cache.get (ascii "k") 1000000000).1 = some (ascii "v") ∧
      (((Processor.storingOne 9223372036854).cache.reloaded .stored ⟨0, 0⟩
        (fun _ => 1000000000)).get (ascii "k") 1000000000).1 = none := by
  refine ⟨fun h => ?_, by decide +kernel, by decide +kernel⟩
  obtain ⟨xs, R, hfit⟩ := (Processor.reachable_storingOne 9223372036854).deadlinesFit
  have hstored := Processor.storable_storingOne 9223372036854
  have hnow : Representable 0 := by unfold Representable; omega
  have hclock : ∀ _ : ℕ, Representable 1000000000 := fun _ => by unfold Representable; omega
  have hfits := fitsClock_of_roundTrip R hfit hstored hnow hclock
    (h 64 _ (Processor.reachable_storingOne 9223372036854) hstored .stored ⟨0, 0⟩
      (fun _ => 1000000000) hnow hclock fun _ => by decide)
  have hlt := hfits.deadline 0 ⟨ascii "k", ascii "v", some 9223372036854⟩ (by decide +kernel)
    (storedRecord (ascii "v") (some 9223372036854) 0) (by decide +kernel) 9223372036854000000
    (by decide +kernel)
  exact absurd hlt (by decide)

end MiniRedis
