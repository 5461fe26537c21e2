import MiniRedis.Persistence.Picture

/-!
# Crashes while a single client writes

The log is behind the cache, and a snapshot can be ahead of the log. A recovery replays the log over
the snapshot: a key that the log mentions goes back to its last line there, while a key that only
the snapshot has keeps the later value. What is recovered is the state after some of the client's
commands if those that only the snapshot has are the next ones after those in the file, without a
gap (`Seamless`). That depends on when the shards are visited and when the queue is drained; it is so
when no shard is visited before the writes to it are in the file.
-/
namespace MiniRedis
variable {M : Platform}

namespace Daemon

/-! ## One client -/

/-- The commands of the only client are put into the queue in the order in which they took effect. -/
structure Alone (client : ℕ) (s : Daemon M) (ws : List WriteCommand) : Prop where
  order : s.issued = ws ++ (s.pending client).toList
  others : ∀ other, other ≠ client → s.pending other = none

namespace Alone
variable {client : ℕ} {s s' : Daemon M} {ws : List WriteCommand} {a : DaemonAction M}

theorem init (client capacity : ℕ) : Alone client (Daemon.init M capacity) [] :=
  ⟨rfl, fun _ _ => rfl⟩

theorem step (A : Alone client s ws) (h : Step s a s')
    (hclient : ∀ other line now, a = .update other line now → other = client) :
    Alone client s' (ws ++ s.queued a) := by
  cases a with
  | update other line now =>
      obtain rfl := hclient other line now rfl
      obtain ⟨w, -, -, hnone, rfl⟩ := update_cases h
      have horder := A.order
      rw [hnone, Option.toList_none, List.append_nil] at horder
      refine ⟨?_, fun other hne => ?_⟩
      · dsimp only
        rw [Function.update_self, horder, queued, List.append_nil, Option.toList_some]
      · dsimp only
        rw [Function.update_of_ne hne]
        exact A.others other hne
  | enqueue other =>
      obtain ⟨w, hw, rfl⟩ := Option.map_eq_some_iff.mp h
      have hother : other = client := by
        by_contra hne
        rw [A.others other hne] at hw
        cases hw
      subst hother
      refine ⟨?_, fun other hne => ?_⟩
      · dsimp only
        rw [Function.update_self, queued, A.order, Option.toList_none, List.append_nil]
      · dsimp only
        rw [Function.update_of_ne hne]
        exact A.others other hne
  | requestStop | requestAofRewrite | work seesStop passed =>
      cases h
      rw [queued, List.append_nil]
      exact ⟨A.order, A.others⟩
  | dump t ord =>
      cases h
      obtain ⟨dump, snapshot, visited, shown, heq⟩ := dumpStep_frame t ord s
      rw [heq, queued, List.append_nil]
      exact ⟨A.order, A.others⟩

end Alone

theorem uncut_step {s s' : Daemon M} {a : DaemonAction M} (h : Step s a s') (U : s.aof.Uncut)
    (hne : a ≠ .requestAofRewrite) : s'.aof.Uncut := by
  cases a with
  | update client line now =>
      obtain ⟨w, -, -, -, rfl⟩ := update_cases h
      exact U
  | enqueue client =>
      obtain ⟨w, -, rfl⟩ := Option.map_eq_some_iff.mp h
      exact ⟨U.truncated, U.request, U.pc⟩
  | requestStop =>
      cases h
      exact ⟨U.truncated, U.request, U.pc⟩
  | requestAofRewrite => exact absurd rfl hne
  | work seesStop passed =>
      cases h
      exact U.work seesStop passed
  | dump t ord =>
      cases h
      obtain ⟨dump, snapshot, visited, shown, heq⟩ := dumpStep_frame t ord s
      rw [heq]
      exact U

/-- What is known of a process with a single client and no rewrite. -/
theorem exists_alone {capacity client : ℕ} {acts : List (DaemonAction M)} {s : Daemon M}
    (hrun : Transition.Run Step (init M capacity) acts s)
    (hclient : ∀ other line now, .update other line now ∈ acts → other = client)
    (hrewrite : .requestAofRewrite ∉ acts) :
    ∃ ws xs, Sound capacity s ws xs ∧ Alone client s ws ∧ s.aof.Uncut := by
  have hacts : ∀ a ∈ acts, (∀ other line now, a = .update other line now → other = client) ∧
      a ≠ .requestAofRewrite := by
    intro a ha
    constructor
    · rintro other line now rfl
      exact hclient other line now ha
    · rintro rfl
      exact hrewrite ha
  have hinit : (init M capacity).aof.Uncut := ⟨rfl, rfl, by simp [init, AofWorker.start]⟩
  refine (hrun.restrict hacts).invariant
    (P := fun s => ∃ ws xs, Sound capacity s ws xs ∧ Alone client s ws ∧ s.aof.Uncut) ?_
    ⟨[], _, .init capacity, .init client capacity, hinit⟩
  rintro x a y ⟨hstep, hturn, hne⟩ ⟨ws, xs, S, A, U⟩
  obtain ⟨ys, S'⟩ := S.step hstep
  exact ⟨_, ys, S', A.step hstep hturn, uncut_step hstep U hne⟩

/-! ## What fits -/

/-- What part of a line is read as needs no more room than the command of the line. -/
theorem fits_of_shortens {t w : WriteCommand} (h : t.Shortens w) (i : Fin M.params.numShards)
    (ws : List WriteCommand) {cap : ℕ}
    (hfits : ∀ l, l <+: shardLog M i (ws ++ [w]) → (WriteLog.contents l).card ≤ cap) :
    ∀ l, l <+: shardLog M i (ws ++ [t]) → (WriteLog.contents l).card ≤ cap := by
  intro l hl
  rw [shardLog_append] at hfits hl
  have hbefore : ∀ l, l <+: shardLog M i ws → (WriteLog.contents l).card ≤ cap :=
    fun l hl => hfits l (hl.trans (List.prefix_append _ _))
  by_cases hi : i = M.home t.key
  · subst hi
    rw [shardLog_singleton_self] at hl
    rcases List.prefix_concat_iff.mp hl with rfl | hl
    · rw [WriteLog.contents_snoc]
      cases t with
      | del key => exact (AList.card_erase_le _ key).trans (hbefore _ List.prefix_rfl)
      | set key value ttl =>
          obtain ⟨-, value', rfl⟩ := h
          have hone : shardLog M (M.home key) [.set key value' none] =
              [(WriteCommand.set key value' none).write 0] := shardLog_singleton_self _
          have hwhole := hfits _ List.prefix_rfl
          rw [WriteCommand.key, hone, WriteLog.contents_snoc] at hwhole
          exact hwhole
    · exact hbefore l hl
  · rw [shardLog_singleton_of_ne hi, List.append_nil] at hl
    exact hbefore l hl

section Fits
variable {capacity : ℕ} {ws : List WriteCommand} {key : Bytes}

/-- Commands that fit leave what they stand for. -/
theorem map_value_replay_of_fits (hfits : ∀ l, l <+: shardLog M (M.home key) ws →
    (WriteLog.contents l).card ≤ capacityOf M.params capacity (M.home key)) :
    ((WriteLog.replay (capacityOf M.params capacity (M.home key)) (shardLog M (M.home key) ws)
      ∅).lookup key).map Record.value = lastValue key ws := by
  rw [WriteLog.replay_eq_contents hfits, WriteLog.lookup_contents, map_value_standing]

theorem outlives_iff_of_fits (hfree : ∀ w ∈ ws, w.ttl = none)
    (hfits : ∀ l, l <+: shardLog M (M.home key) ws →
      (WriteLog.contents l).card ≤ capacityOf M.params capacity (M.home key)) (value : Bytes) :
    Outlives M capacity key value ws ↔ lastValue key ws = some value := by
  rw [← map_value_replay_iff hfree, map_value_replay_of_fits hfits]

theorem get_replayCommands_of_fits (hfree : ∀ w ∈ ws, w.ttl = none)
    (hfits : ∀ l, l <+: shardLog M (M.home key) ws →
      (WriteLog.contents l).card ≤ capacityOf M.params capacity (M.home key))
    (clock : ℕ → TimePoint) (now : TimePoint) :
    ((replayCommands (timed clock ws) (ShardedCache.construct M.params capacity)).get key now).1 =
      lastValue key ws := by
  rw [get_replayCommands capacity hfree]
  exact map_value_replay_of_fits hfits

end Fits

section File
variable {capacity client : ℕ} {s : Daemon M} {ws kept rest torn : List WriteCommand}
  {xs : Fin M.params.numShards → RecencyList Bytes (Record Bytes)}

/-- The lines in the file fit as long as nothing was evicted. -/
theorem Filed.fits (F : Filed s ws [] kept rest torn) (S : Sound capacity s ws xs) (A : Alone client s ws)
    (hevictions : s.cache.counters.evictions = 0) {i : Fin M.params.numShards}
    (hcap : capacityOf M.params capacity i ≠ 0) :
    ∀ l, l <+: shardLog M i (readBack s.aof.file) →
      (WriteLog.contents l).card ≤ capacityOf M.params capacity i := by
  have hfits := (S.live hevictions i hcap).fits
  have hissued : s.issued = kept ++ rest ++ (s.pending client).toList := by
    rw [A.order, F.all, List.nil_append]
  rw [F.read]
  rcases F.torn_cases with rfl | ⟨w, rest', t, rfl, rfl, ht⟩
  · intro l hl
    refine hfits l (hl.trans ?_)
    rw [hissued, List.append_nil, List.append_assoc, shardLog_append]
    exact List.prefix_append _ _
  · refine fits_of_shortens ht i kept fun l hl => hfits l (hl.trans ?_)
    have hnext : s.issued = kept ++ [w] ++ (rest' ++ (s.pending client).toList) := by
      rw [hissued]
      simp
    rw [hnext, shardLog_append i (kept ++ [w])]
    exact List.prefix_append _ _

/-- A key that the file mentions is recovered as its last line there says. -/
theorem Filed.outlives_left_iff (F : Filed s ws [] kept rest torn) (S : Sound capacity s ws xs)
    (A : Alone client s ws) (hevictions : s.cache.counters.evictions = 0) {key : Bytes}
    (hcap : capacityOf M.params capacity (M.home key) ≠ 0)
    (hkey : ∃ w ∈ readBack s.aof.file, w.key = key) (value : Bytes) :
    Outlives M capacity key value s.left ↔ lastValue key (readBack s.aof.file) = some value := by
  have hfile : ∀ w ∈ readBack s.aof.file, w.ttl = none :=
    fun w hw => S.ttl_left w (List.mem_append_right _ hw)
  exact (outlives_append_iff S.ttl_left hkey).trans
    (outlives_iff_of_fits hfile (F.fits S A hevictions hcap) value)

/-- What the first of the issued commands leave when no others follow. -/
theorem Sound.get_issued (S : Sound capacity s ws xs) (hevictions : s.cache.counters.evictions = 0) {first : List WriteCommand}
    (hfirst : first <+: s.issued) (clock : ℕ → TimePoint) (now : TimePoint) {key : Bytes}
    (hcap : capacityOf M.params capacity (M.home key) ≠ 0) :
    ((replayCommands (timed clock first) (ShardedCache.construct M.params capacity)).get key now).1 =
      lastValue key first := by
  refine get_replayCommands_of_fits (fun w hw => (S.valid w (hfirst.subset hw)).2) ?_ clock now
  intro l hl
  obtain ⟨later, hlater⟩ := hfirst
  refine (S.live hevictions _ hcap).fits l (hl.trans ?_)
  rw [← hlater, shardLog_append]
  exact List.prefix_append _ _

end File

/-! ## States that existed -/

/-- A restart recovers what some of the issued commands, the flushed ones among them, leave when no
others follow. -/
def PrefixConsistent (s : Daemon M) : Prop :=
  ∃ n, s.flushed <+: s.issued.take n ∧ ∀ clock clock' now now' key,
    ((s.recover clock).get key now).1 =
      ((replayCommands (timed clock' (s.issued.take n))
        (ShardedCache.construct M.params s.cache.maxKeys)).get key now').1

/-- The command with the number `j` is about a shard that has any capacity. -/
def Counts (s : Daemon M) (j : ℕ) : Prop :=
  ∃ w ∈ s.issued[j]?, capacityOf M.params s.cache.maxKeys (M.home w.key) ≠ 0

instance (s : Daemon M) : DecidablePred s.Counts := fun j =>
  inferInstanceAs (Decidable (∃ w ∈ s.issued[j]?,
    capacityOf M.params s.cache.maxKeys (M.home w.key) ≠ 0))

/-- A recovery has the command with the number `j` from the snapshot alone: no line of the file is about
its key, and it had taken effect when the snapshot in place visited its shard. -/
def Ahead (s : Daemon M) (j : ℕ) : Prop :=
  ∃ w ∈ s.issued[j]?, capacityOf M.params s.cache.maxKeys (M.home w.key) ≠ 0 ∧
    (∀ v ∈ readBack s.aof.file, v.key ≠ w.key) ∧ j < s.shown (M.home w.key)

instance (s : Daemon M) : DecidablePred s.Ahead := fun j =>
  inferInstanceAs (Decidable (∃ w ∈ s.issued[j]?,
    capacityOf M.params s.cache.maxKeys (M.home w.key) ≠ 0 ∧ (∀ v ∈ readBack s.aof.file, v.key ≠ w.key) ∧ j < s.shown (M.home w.key)))

/-- Up to the last command that only the snapshot has, it has all those that the file does not have. -/
def Gapless (s : Daemon M) : Prop :=
  ∀ j < s.issued.length, s.Ahead j →
    ∀ i < j, (readBack s.aof.file).length ≤ i → s.Counts i → s.Ahead i

instance (s : Daemon M) : Decidable s.Gapless :=
  inferInstanceAs (Decidable (∀ j < s.issued.length, s.Ahead j →
    ∀ i < j, (readBack s.aof.file).length ≤ i → s.Counts i → s.Ahead i))

/-- The snapshot goes on where the file ends. -/
structure Seamless (s : Daemon M) : Prop where
  /-- The file does not end with a part of a line that is read as another command. -/
  whole : readBack s.aof.file <+: s.issued
  gapless : s.Gapless
  /-- The lines of the file leave room to the keys that only the snapshot has. -/
  roomy : ∀ j < s.issued.length, s.Ahead j → ∀ w ∈ s.issued[j]?, s.Roomy (M.home w.key)

instance (s : Daemon M) : Decidable s.Seamless :=
  decidable_of_iff
    (readBack s.aof.file <+: s.issued ∧ s.Gapless ∧
      ∀ j < s.issued.length, s.Ahead j → ∀ w ∈ s.issued[j]?, s.Roomy (M.home w.key))
    ⟨fun h => ⟨h.1, h.2.1, h.2.2⟩, fun h => ⟨h.whole, h.gapless, h.roomy⟩⟩

/-- The first commands are in the file. -/
theorem mem_readBack_of_lt {s : Daemon M} (hwhole : readBack s.aof.file <+: s.issued) {j : ℕ}
    {w : WriteCommand} (hw : s.issued[j]? = some w) (hj : j < (readBack s.aof.file).length) :
    w ∈ readBack s.aof.file := by
  obtain ⟨rest, hrest⟩ := hwhole
  rw [← hrest, List.getElem?_append_left hj] at hw
  exact List.mem_of_getElem? hw

/-- A snapshot that is behind the file in every shard adds nothing. -/
theorem seamless_of_behind {s : Daemon M} (hwhole : readBack s.aof.file <+: s.issued)
    (hbehind : ∀ i, s.shown i ≤ (readBack s.aof.file).length) : s.Seamless := by
  have hnone : ∀ j, ¬ s.Ahead j := by
    rintro j ⟨w, hw, -, hkey, hj⟩
    exact hkey w (mem_readBack_of_lt hwhole hw (hj.trans_le (hbehind _))) rfl
  exact ⟨hwhole, fun j _ h => absurd h (hnone j), fun j _ h => absurd h (hnone j)⟩

section Seamless
variable {s : Daemon M} {key : Bytes}

/-- What is ahead comes after what is in the file. -/
theorem Ahead.length_le (hwhole : readBack s.aof.file <+: s.issued) {j : ℕ} (h : s.Ahead j) :
    (readBack s.aof.file).length ≤ j := by
  obtain ⟨w, hw, -, hkey, -⟩ := h
  by_contra hlt
  exact hkey w (mem_readBack_of_lt hwhole hw (not_le.mp hlt)) rfl

theorem Ahead.lt_length {j : ℕ} (h : s.Ahead j) : j < s.issued.length := by
  obtain ⟨w, hw, -⟩ := h
  exact (List.getElem?_eq_some_iff.mp hw).1

/-- The number of commands that the files have together. -/
theorem Seamless.exists_length (h : s.Seamless) :
    ∃ n, (readBack s.aof.file).length ≤ n ∧ (∀ j, s.Ahead j → j < n) ∧
      ∀ i < n, (readBack s.aof.file).length ≤ i → s.Counts i → s.Ahead i := by
  by_cases hany : ∃ j, s.Ahead j
  · obtain ⟨j, hj⟩ := hany
    let m := Nat.findGreatest s.Ahead s.issued.length
    have hm : s.Ahead m := Nat.findGreatest_spec hj.lt_length.le hj
    have hlast : ∀ i, s.Ahead i → i ≤ m := fun i hi => Nat.le_findGreatest hi.lt_length.le hi
    refine ⟨m + 1, (hm.length_le h.whole).trans (Nat.le_succ m), ?_, ?_⟩
    · exact fun i hi => Nat.lt_succ_of_le (hlast i hi)
    · intro i hi hge hcap
      rcases Nat.lt_succ_iff_lt_or_eq.mp hi with hi | rfl
      · exact h.gapless m hm.lt_length hm i hi hge hcap
      · exact hm
  · push Not at hany
    refine ⟨(readBack s.aof.file).length, le_rfl, fun j hj => absurd hj (hany j), ?_⟩
    intro i hi hge
    omega

/-- Commands about other keys do not matter. -/
theorem lastValue_take_of_le {ws : List WriteCommand} {m n : ℕ} (hmn : m ≤ n)
    (h : ∀ i w, m ≤ i → i < n → ws[i]? = some w → w.key ≠ key) :
    lastValue key (ws.take n) = lastValue key (ws.take m) := by
  have hsplit : ws.take n = ws.take m ++ (ws.take n).drop m := by
    have htake : (ws.take n).take m = ws.take m := by rw [List.take_take, Nat.min_eq_left hmn]
    rw [← htake, List.take_append_drop]
  rw [hsplit]
  refine lastValue_append_of_unmentioned fun w hw => ?_
  obtain ⟨i, hi⟩ := List.mem_iff_getElem?.mp hw
  rw [List.getElem?_drop, List.getElem?_take] at hi
  split at hi
  · next hlt => exact h (m + i) w (Nat.le_add_right m i) hlt hi
  · cases hi

/-- Two parts of the commands that have the same ones about a key. -/
theorem lastValue_take_congr {ws : List WriteCommand} {m n : ℕ}
    (h : ∀ i w, ws[i]? = some w → w.key = key → (i < m ↔ i < n)) :
    lastValue key (ws.take m) = lastValue key (ws.take n) := by
  rcases le_total m n with hmn | hnm
  · refine (lastValue_take_of_le hmn ?_).symm
    intro i w hi hin hw hkey
    exact absurd ((h i w hw hkey).mpr hin) (not_lt.mpr hi)
  · refine lastValue_take_of_le hnm ?_
    intro i w hi him hw hkey
    exact absurd ((h i w hw hkey).mp him) (not_lt.mpr hi)

end Seamless

section
variable {capacity client : ℕ} {acts : List (DaemonAction M)} {s : Daemon M}
  {ws : List WriteCommand} {xs : Fin M.params.numShards → RecencyList Bytes (Record Bytes)}

/-- A key that the file does not mention is recovered as the snapshot shows it. -/
theorem outlives_iff_picture (P : s.Pictured s.cache.maxKeys) (S : Sound s.cache.maxKeys s ws xs)
    (hevictions : s.cache.counters.evictions = 0)
    (hroomy : ∀ j < s.issued.length, s.Ahead j → ∀ w ∈ s.issued[j]?, s.Roomy (M.home w.key))
    {key : Bytes} (hcap : capacityOf M.params s.cache.maxKeys (M.home key) ≠ 0)
    (hkey : ∀ w ∈ readBack s.aof.file, w.key ≠ key) (value : Bytes) :
    Outlives M s.cache.maxKeys key value s.left ↔
      lastValue key (s.picture (M.home key)) = some value := by
  refine ⟨P.lastValue_picture hcap S.ttl_left hkey, fun hvalue => ?_⟩
  have hmem : ∃ w ∈ s.picture (M.home key), w.key = key := by
    by_contra hnone
    push Not at hnone
    rw [lastValue_of_unmentioned hnone] at hvalue
    cases hvalue
  obtain ⟨w, hw, rfl⟩ := hmem
  obtain ⟨j, hj⟩ := List.mem_iff_getElem?.mp hw
  rw [picture, List.getElem?_take] at hj
  split at hj
  · next hlt =>
    have hahead : s.Ahead j := ⟨w, hj, hcap, hkey, hlt⟩
    exact (P.outlives_iff S hevictions hcap hkey
      (hroomy j hahead.lt_length hahead w hj)).mpr hvalue
  · cases hj

/-- **A crash recovers a state that existed**, and not an earlier one than the flushed commands left, if
the snapshot goes on where the file ends. -/
theorem prefixConsistent_of_seamless (hrun : Transition.Run Step (init M capacity) acts s)
    (hclient : ∀ other line now, .update other line now ∈ acts → other = client)
    (hrewrite : .requestAofRewrite ∉ acts) (hevictions : s.cache.counters.evictions = 0)
    (h : s.Seamless) : s.PrefixConsistent := by
  obtain ⟨ws, xs, S, A, U⟩ := exists_alone hrun hclient hrewrite
  obtain ⟨cut, kept, rest, torn, F⟩ := S.exists_filed
  obtain rfl := F.cut_nil U.truncated
  have P := pictured_of_run hrun hevictions
  have hmax := S.maxKeys
  subst hmax
  have hfree := S.ttl_left
  obtain ⟨n, hn, hahead, hgapless⟩ := h.exists_length
  have hflushed : s.flushed <+: s.issued.take n := by
    have hread : s.flushed <+: readBack s.aof.file := by
      rw [F.flushed, F.read, List.nil_append]
      exact List.prefix_append _ _
    rw [List.prefix_take_iff]
    exact ⟨hread.trans h.whole, hread.length_le.trans hn⟩
  refine ⟨n, hflushed, ?_⟩
  intro clock clock' now now' key
  by_cases hcap : capacityOf M.params s.cache.maxKeys (M.home key) = 0
  · have R := (ShardedCache.Rep.construct (P := M.params) s.cache.maxKeys).replayCommands
    have hmax := fun ws => maxKeys_replayCommands ws (ShardedCache.construct M.params s.cache.maxKeys)
    rw [recover, recoverFromDisk_eq, (R _).get_of_capacityOf_eq_zero ((hmax _).symm ▸ hcap),
      (R _).get_of_capacityOf_eq_zero ((hmax _).symm ▸ hcap)]
  · rw [S.get_issued hevictions (List.take_prefix n _) clock' now' hcap]
    apply Option.ext
    intro value
    rw [get_recover_iff hfree]
    -- from the end of the file up to `n` there are only commands that the snapshot has
    have hnext : ∀ i w, s.issued[i]? = some w → w.key = key → (readBack s.aof.file).length ≤ i →
        i < n → s.Ahead i := by
      rintro i w hw rfl hge hi
      exact hgapless i hi hge ⟨w, hw, hcap⟩
    by_cases hkey : ∃ w ∈ readBack s.aof.file, w.key = key
    · have hlast : lastValue key (s.issued.take n) = lastValue key (readBack s.aof.file) := by
        conv_rhs => rw [List.prefix_iff_eq_take.mp h.whole]
        refine lastValue_take_of_le hn ?_
        intro i w hge hi hw heq
        obtain ⟨v, hv, -, hother, -⟩ := hnext i w hw heq hge hi
        cases hw.symm.trans hv
        obtain ⟨u, hu, huk⟩ := hkey
        exact hother u hu (huk.trans heq.symm)
      rw [F.outlives_left_iff S A hevictions hcap hkey, hlast]
    · push Not at hkey
      have hlast : lastValue key (s.issued.take n) = lastValue key (s.picture (M.home key)) := by
        refine lastValue_take_congr ?_
        rintro i w hw rfl
        constructor
        · intro hi
          have hge : (readBack s.aof.file).length ≤ i := by
            by_contra hlt
            exact hkey w (mem_readBack_of_lt h.whole hw (not_le.mp hlt)) rfl
          obtain ⟨v, hv, -, -, hshown⟩ := hnext i w hw rfl hge hi
          cases hw.symm.trans hv
          exact hshown
        · exact fun hi => hahead i ⟨w, hw, hcap, hkey, hi⟩
      rw [hlast]
      exact outlives_iff_picture P S hevictions h.roomy hcap hkey value

/-- No command leaves its key as the key was after earlier commands. -/
def NothingComesBack (s : Daemon M) : Prop :=
  ∀ key m n, m ≤ n → lastValue key (s.issued.take m) = lastValue key (s.issued.take n) →
    ∀ i w, m ≤ i → i < n → s.issued[i]? = some w → w.key ≠ key

/-- A gap shows in what is recovered, unless later commands undo what is missing. -/
theorem gapless_of_prefixConsistent (hrun : Transition.Run Step (init M capacity) acts s)
    (hclient : ∀ other line now, .update other line now ∈ acts → other = client)
    (hrewrite : .requestAofRewrite ∉ acts) (hevictions : s.cache.counters.evictions = 0)
    (hwhole : readBack s.aof.file <+: s.issued)
    (hroomy : ∀ j < s.issued.length, s.Ahead j → ∀ w ∈ s.issued[j]?, s.Roomy (M.home w.key))
    (hfresh : s.NothingComesBack) (h : s.PrefixConsistent) : s.Gapless := by
  obtain ⟨ws, xs, S, A, U⟩ := exists_alone hrun hclient hrewrite
  obtain ⟨cut, kept, rest, torn, F⟩ := S.exists_filed
  obtain rfl := F.cut_nil U.truncated
  have P := pictured_of_run hrun hevictions
  have hmax := S.maxKeys
  subst hmax
  obtain ⟨n, -, hread⟩ := h
  have hvalue : ∀ key, capacityOf M.params s.cache.maxKeys (M.home key) ≠ 0 → ∀ value,
      Outlives M s.cache.maxKeys key value s.left ↔
        lastValue key (s.issued.take n) = some value := by
    intro key hcap value
    rw [← S.get_issued hevictions (List.take_prefix n _) (fun _ => 0) 0 hcap,
      ← hread ⟨fun _ => 0, fun _ => 0⟩ (fun _ => 0) 0 0 key]
    exact (get_recover_iff S.ttl_left _ key 0 value).symm
  -- the commands on a key that the file does not mention are before `n` if the snapshot has them
  have hsame : ∀ i w, s.issued[i]? = some w →
      capacityOf M.params s.cache.maxKeys (M.home w.key) ≠ 0 →
      (∀ v ∈ readBack s.aof.file, v.key ≠ w.key) → (i < s.shown (M.home w.key) ↔ i < n) := by
    intro i w hw hcap hkey
    have hlast : lastValue w.key (s.issued.take (s.shown (M.home w.key))) =
        lastValue w.key (s.issued.take n) := by
      apply Option.ext
      intro value
      exact (outlives_iff_picture P S hevictions hroomy hcap hkey value).symm.trans
        (hvalue w.key hcap value)
    constructor
    · intro hshown
      by_contra hn
      exact hfresh w.key n _ ((not_lt.mp hn).trans hshown.le) hlast.symm i w (not_lt.mp hn) hshown hw rfl
    · intro hn
      by_contra hshown
      exact hfresh w.key _ n ((not_lt.mp hshown).trans hn.le) hlast i w (not_lt.mp hshown) hn hw rfl
  rintro j - ⟨v, hv, hcapv, hkeyv, hj⟩ i hij hi ⟨w, hw, hcap⟩
  have hin : i < n := hij.trans ((hsame j v hv hcapv hkeyv).mp hj)
  have hkey : ∀ u ∈ readBack s.aof.file, u.key ≠ w.key := by
    by_contra hmentioned
    push Not at hmentioned
    have hlast : lastValue w.key (s.issued.take (readBack s.aof.file).length) =
        lastValue w.key (s.issued.take n) := by
      rw [← List.prefix_iff_eq_take.mp hwhole]
      apply Option.ext
      intro value
      exact (F.outlives_left_iff S A hevictions hcap hmentioned value).symm.trans
        (hvalue w.key hcap value)
    exact hfresh w.key _ n (hi.trans hin.le) hlast i w hi hin hw rfl
  exact ⟨w, hw, hcap, hkey, (hsame i w hw hcap hkey).mpr hin⟩

end

/-- The snapshot thread writes a file. -/
def dumping : List (DaemonAction Platform.oneShard) :=
  List.replicate (Platform.oneShard.params.numShards + 4) (.dump ⟨0, 0⟩ .stored)

/-- A first line is flushed. The client sends two more, and a snapshot is written before these are
flushed. -/
def aheadOfLog (second third : Bytes) : List (DaemonAction Platform.oneShard) :=
  flushedSet ++ [.update 0 second 0, .enqueue 0, .update 0 third 0] ++ dumping

theorem client_aheadOfLog {second third : Bytes} (other : ℕ) (line : Bytes) (now : TimePoint)
    (h : .update other line now ∈ aheadOfLog second third) : other = 0 := by
  simp only [aheadOfLog, flushedSet, working, dumping, List.cons_append, List.mem_cons,
    List.nil_append, List.mem_append, List.mem_replicate, List.not_mem_nil, or_false] at h
  rcases h with heq | heq | (⟨-, heq⟩ | heq | heq | heq) | ⟨-, heq⟩ <;> cases heq <;> rfl

theorem rewrite_aheadOfLog (second third : Bytes) :
    .requestAofRewrite ∉ aheadOfLog second third := by
  simp [aheadOfLog, flushedSet, working, dumping]

/-- The two commands are about another key. -/
theorem prefixConsistent_of_seamless_otherKey :
    ∃ s, after (aheadOfLog (ascii "SET b 1") (ascii "SET b 2")) = some s ∧ s.PrefixConsistent := by
  have hsome : (after (aheadOfLog (ascii "SET b 1") (ascii "SET b 2"))).isSome = true := by
    decide +kernel
  obtain ⟨s, hs⟩ := Option.isSome_iff_exists.mp hsome
  have hevictions : s.cache.counters.evictions = 0 :=
    of_after (f := fun s => s.cache.counters.evictions) hs (by decide +kernel)
  have hseamless : decide s.Seamless = true :=
    of_after (f := fun s => decide s.Seamless) hs (by decide +kernel)
  exact ⟨s, hs, prefixConsistent_of_seamless (Transition.run_of_exec hs) client_aheadOfLog
    (rewrite_aheadOfLog _ _) hevictions (of_decide_eq_true hseamless)⟩

/-- The first of the two overwrites the key of the file: the restart reads its first value together
with the second key. -/
theorem mixed_state_recovered :
    ¬ ∀ (capacity client : ℕ) (acts : List (DaemonAction Platform.oneShard))
      (s : Daemon Platform.oneShard), Transition.Run Step (init Platform.oneShard capacity) acts s →
      (∀ other line now, .update other line now ∈ acts → other = client) →
      .requestAofRewrite ∉ acts → s.cache.counters.evictions = 0 → s.PrefixConsistent := by
  intro h
  have hsome : (after (aheadOfLog (ascii "SET a 2") (ascii "SET b 1"))).isSome = true := by
    decide +kernel
  obtain ⟨s, hs⟩ := Option.isSome_iff_exists.mp hsome
  have hevictions : s.cache.counters.evictions = 0 :=
    of_after (f := fun s => s.cache.counters.evictions) hs (by decide +kernel)
  obtain ⟨n, -, hread⟩ :=
    h 128 0 _ s (Transition.run_of_exec hs) client_aheadOfLog (rewrite_aheadOfLog _ _) hevictions
  let clock : RecoveryClock := ⟨fun _ => 0, fun _ => 0⟩
  have hmax : s.cache.maxKeys = 128 := of_after (f := fun s => s.cache.maxKeys) hs (by decide +kernel)
  have hissued : s.issued = [.set (ascii "a") (ascii "1") none, .set (ascii "a") (ascii "2") none,
      .set (ascii "b") (ascii "1") none] := of_after (f := issued) hs (by decide +kernel)
  have hfree : ∀ w ∈ s.issued.take n, w.ttl = none := by
    rw [hissued]
    exact fun w hw => (by decide : ∀ w ∈ _, WriteCommand.ttl w = none) w (List.mem_of_mem_take hw)
  have hrecovered : (((s.recover clock).get (ascii "a") 0).1, ((s.recover clock).get (ascii "b") 0).1) =
      (some (ascii "1"), some (ascii "1")) :=
    of_after (f := fun s => (((s.recover clock).get (ascii "a") 0).1,
      ((s.recover clock).get (ascii "b") 0).1)) hs (by decide +kernel)
  obtain ⟨hfirst, hsecond⟩ := Prod.mk.inj hrecovered
  have ha := hread clock (fun _ => 0) 0 0 (ascii "a")
  have hb := hread clock (fun _ => 0) 0 0 (ascii "b")
  rw [get_replayCommands _ hfree, hfirst, hissued, hmax] at ha
  rw [get_replayCommands _ hfree, hsecond, hissued, hmax] at hb
  -- only all three commands leave the second key, and the first key is overwritten then
  match n with
  | 0 => exact absurd hb (by decide +kernel)
  | 1 => exact absurd hb (by decide +kernel)
  | 2 => exact absurd hb (by decide +kernel)
  | n + 3 =>
      rw [List.take_of_length_le (Nat.le_add_left 3 n)] at ha
      exact absurd ha (by decide +kernel)

end Daemon
end MiniRedis
