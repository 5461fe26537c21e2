import MiniRedis.Text.Bytes

/-!
# Sending a response

`send_all` calls `send` until every byte of a response is accepted. The number of bytes left is a
`std::size_t`, and it is narrowed to `int` before it is passed on; where `send` takes a `size_t` it
is widened again. A run is recorded as the list of its calls, with the length that `send` received
and what it returned. `wire` is what the calls transmitted.

The response is transmitted exactly as long as the narrowed number is positive. That is always so
for responses below two gigabytes. For longer ones it depends on how much `send` accepts before it
fails: `sendAll_transmits_iff` has the condition.
-/
namespace MiniRedis

/-- A `std::string`, whose `max_size` is below `2 ^ 63`. -/
structure StdString where
  bytes : Bytes
  fits : bytes.length < 2 ^ 63

/-- The two declarations of `send`. -/
inductive SocketApi
  /-- `ssize_t send(int, const void*, size_t, int)` -/
  | posix
  /-- `int send(SOCKET, const char*, int, int)` -/
  | winsock

/-- What a call of `send` returns. -/
inductive SendResult
  | error
  | sent (n : ℕ)
  deriving DecidableEq, Repr

/-- The returned number. -/
def SendResult.value : SendResult → ℤ
  | .error => -1
  | .sent n => n

/-- `static_cast<int>` -/
def narrow (x : ℤ) : ℤ := x.bmod (2 ^ 32)

/-- `static_cast<std::size_t>` -/
def widen (x : ℤ) : ℤ := x % 2 ^ 64

namespace SocketApi

/-- The length that `send` receives when `send_all` passes `toSend`. -/
def length : SocketApi → ℤ → ℤ
  | .posix, toSend => widen toSend
  | .winsock, toSend => toSend

/-- The `int` that `send_all` makes of a result. -/
def sent : SocketApi → SendResult → ℤ
  | .posix, r => narrow r.value
  | .winsock, r => r.value

end SocketApi

/-- A call of `send`. -/
structure SendCall where
  /-- Where in the data the pointer points to. -/
  offset : ℕ
  length : ℤ
  /-- There is none while the call has not returned. -/
  result : Option SendResult
  deriving DecidableEq, Repr

structure SendRun where
  calls : List SendCall
  /-- What `send_all` has returned, if it has. -/
  returned : Option Bool
  deriving DecidableEq, Repr

/-- The loop of `send_all`, with `total` for `sent_total` and given what the calls of `send` return.
The last call is still running if there are no more results. Additions to `sent_total` cannot
overflow: it is below `data.size()` before and grows by an `int`. -/
def sendLoop (api : SocketApi) (data : Bytes) : List SendResult → ℕ → SendRun
  | rs, total =>
      if total < data.length then
        let toSend := narrow (data.length - total)
        match rs with
        | [] => ⟨[⟨total, api.length toSend, none⟩], none⟩
        | r :: rs =>
            let sent := api.sent r
            if sent ≤ 0 then ⟨[⟨total, api.length toSend, some r⟩], some false⟩
            else
              let rest := sendLoop api data rs (total + sent.toNat)
              ⟨⟨total, api.length toSend, some r⟩ :: rest.calls, rest.returned⟩
      else ⟨[], some true⟩

def sendAll (api : SocketApi) (data : StdString) (rs : List SendResult) : SendRun :=
  sendLoop api data.bytes rs 0

/-- The bytes a call transmits, read from where its pointer points to. There is none past the end of
the data. -/
def SendCall.transmitted (data : Bytes) (c : SendCall) : List (Option UInt8) :=
  match c.result with
  | some (.sent n) => (List.range n).map fun j => data[c.offset + j]?
  | _ => []

def SendRun.wire (data : Bytes) (t : SendRun) : List (Option UInt8) :=
  t.calls.flatMap (SendCall.transmitted data)

/-- The call accepts no more than it is asked to. -/
def SendCall.honest (c : SendCall) : Bool :=
  match c.result with
  | some (.sent n) => decide ((n : ℤ) ≤ c.length)
  | _ => true

def SendRun.Honest (t : SendRun) : Prop := ∀ c ∈ t.calls, c.honest = true

instance (t : SendRun) : Decidable t.Honest :=
  inferInstanceAs (Decidable (∀ c ∈ t.calls, c.honest = true))

/-- The call has failed. -/
def SendCall.Failed (c : SendCall) : Prop := c.result = some .error ∨ c.result = some (.sent 0)

/-- Exactly the data is transmitted, from the byte `total` on. -/
structure SendRun.Transmits (data : Bytes) (total : ℕ) (t : SendRun) : Prop where
  /-- Each call asks for something, and for no more than what is left. -/
  asks : ∀ c ∈ t.calls, 0 < c.length ∧ c.length ≤ data.length - c.offset
  inOrder : t.wire data <+: (data.drop total).map some
  returns_true : t.returned = some true ↔ t.wire data = (data.drop total).map some
  returns_false : t.returned = some false ↔ ∃ c ∈ t.calls, c.Failed

/-- How many bytes the results accept before the first failure. -/
def accepted : List SendResult → ℕ
  | .sent (n + 1) :: rs => n + 1 + accepted rs
  | _ => 0

/-- The condition on the number of bytes left and the results to come. -/
def StaysInRange (left : ℕ) (rs : List SendResult) : Prop :=
  left < 2 ^ 31 ∨ (left % 2 ^ 32 < 2 ^ 31 ∧ accepted rs < left % 2 ^ 32)

/-! ## One call -/

/-- The `int` made of a number depends on its lowest 32 bits. -/
theorem narrow_natCast (n : ℕ) :
    narrow n = if n % 2 ^ 32 < 2 ^ 31 then ((n % 2 ^ 32 : ℕ) : ℤ)
      else ((n % 2 ^ 32 : ℕ) : ℤ) - 2 ^ 32 := by
  rw [narrow, Int.bmod_def]
  split <;> split <;> omega

/-- If these are below `2 ^ 31` they are what `send` is asked for. -/
theorem length_narrow_eq (api : SocketApi) {left : ℕ} (h : left % 2 ^ 32 < 2 ^ 31) :
    api.length (narrow left) = (left % 2 ^ 32 : ℕ) := by
  rw [narrow_natCast, if_pos h]
  cases api with
  | posix =>
      simp only [SocketApi.length, widen]
      omega
  | winsock => rfl

/-- A call asks for a length between one and what is left if and only if the narrowed number is
positive. -/
theorem length_narrow_iff (api : SocketApi) {left : ℕ} (h : left < 2 ^ 63) (hpos : 0 < left) :
    (0 < api.length (narrow left) ∧ api.length (narrow left) ≤ left) ↔
      0 < left % 2 ^ 32 ∧ left % 2 ^ 32 < 2 ^ 31 := by
  by_cases hlow : left % 2 ^ 32 < 2 ^ 31
  · rw [length_narrow_eq api hlow]
    omega
  · rw [narrow_natCast, if_neg hlow]
    cases api with
    | posix =>
        simp only [SocketApi.length, widen]
        omega
    | winsock =>
        simp only [SocketApi.length]
        omega

theorem sent_eq (api : SocketApi) {n : ℕ} (h : n < 2 ^ 31) : api.sent (.sent n) = n := by
  cases api with
  | posix =>
      have hmod : n % 2 ^ 32 = n := Nat.mod_eq_of_lt (by omega)
      rw [SocketApi.sent, SendResult.value, narrow_natCast, hmod, if_pos h]
  | winsock => rfl

theorem sent_error (api : SocketApi) : api.sent .error = -1 := by
  cases api <;> rfl

/-- A call that stays inside the data transmits the next bytes. -/
theorem transmitted_sent {data : Bytes} {total n : ℕ} (h : total + n ≤ data.length) (length : ℤ) :
    SendCall.transmitted data ⟨total, length, some (.sent n)⟩
      = ((data.drop total).take n).map some := by
  apply List.ext_getElem?
  intro j
  by_cases hj : j < n
  · have hlt : total + j < data.length := by omega
    simp [SendCall.transmitted, hj, hlt]
  · have hle : n ≤ j := Nat.le_of_not_lt hj
    rw [List.getElem?_eq_none, List.getElem?_eq_none] <;> simp [SendCall.transmitted] <;> omega

namespace SendRun
variable {data : Bytes} {total n : ℕ} {length : ℤ} {t : SendRun}

/-- With nothing left there is nothing to do. -/
theorem transmits_nil (h : data.length ≤ total) : Transmits data total ⟨[], some true⟩ := by
  have hdrop : data.drop total = [] := List.drop_eq_nil_of_le h
  refine ⟨by simp, ?_, ?_, by simp⟩ <;> simp [wire, hdrop]

/-- A call that transmits nothing, because it fails or has not returned, is as good as its length. -/
theorem transmits_last_iff (h : total < data.length) {result : Option SendResult}
    {returned : Option Bool} (hwire : SendCall.transmitted data ⟨total, length, result⟩ = [])
    (htrue : returned ≠ some true)
    (hfalse : returned = some false ↔ SendCall.Failed ⟨total, length, result⟩) :
    Transmits data total ⟨[⟨total, length, result⟩], returned⟩ ↔
      0 < length ∧ length ≤ data.length - total := by
  refine ⟨fun T => T.asks _ List.mem_cons_self, fun hasks => ?_⟩
  have hnil : wire data ⟨[⟨total, length, result⟩], returned⟩ = [] := by
    simp [wire, hwire]
  have hleft : (data.drop total).map some ≠ [] := by
    simpa using h
  refine ⟨by simpa using hasks, ?_, ?_, by simpa using hfalse⟩
  · rw [hnil]
    exact List.nil_prefix
  · rw [hnil]
    exact iff_of_false htrue hleft.symm

/-- After a call that sent something the rest of the run has to transmit the rest. -/
theorem transmits_cons_iff (hpos : 0 < n) (hle : total + n ≤ data.length)
    (hasks : 0 < length ∧ length ≤ data.length - total) :
    Transmits data total ⟨⟨total, length, some (.sent n)⟩ :: t.calls, t.returned⟩ ↔
      Transmits data (total + n) t := by
  have hwire : wire data ⟨⟨total, length, some (.sent n)⟩ :: t.calls, t.returned⟩
      = ((data.drop total).take n).map some ++ t.wire data := by
    rw [wire, List.flatMap_cons, transmitted_sent hle]
    rfl
  have hdata : (data.drop total).map some
      = ((data.drop total).take n).map some ++ (data.drop (total + n)).map some := by
    rw [← List.map_append, ← List.drop_drop, List.take_append_drop]
  have hfailed : ¬ SendCall.Failed ⟨total, length, some (.sent n)⟩ := by
    simp only [SendCall.Failed]
    rintro (h | h)
    · cases h
    · cases h
      exact Nat.lt_irrefl 0 hpos
  constructor
  · rintro ⟨hall, hprefix, htrue, hfalse⟩
    rw [hwire, hdata] at hprefix htrue
    refine ⟨fun c hc => hall c (List.mem_cons_of_mem _ hc), ?_, ?_, ?_⟩
    · exact (List.prefix_append_right_inj _).mp hprefix
    · rwa [List.append_cancel_left_eq] at htrue
    · simpa [hfailed] using hfalse
  · rintro ⟨hall, hprefix, htrue, hfalse⟩
    refine ⟨List.forall_mem_cons.mpr ⟨hasks, hall⟩, ?_, ?_, ?_⟩
    · rw [hwire, hdata]
      exact (List.prefix_append_right_inj _).mpr hprefix
    · rw [hwire, hdata, List.append_cancel_left_eq]
      exact htrue
    · simpa [hfailed] using hfalse

end SendRun

/-! ## The loop -/

/-- What is in range before a call that sent something is in range after it. -/
theorem staysInRange_sent {left n : ℕ} (hpos : 0 < n) (hle : n ≤ left % 2 ^ 32)
    (hlow : left % 2 ^ 32 < 2 ^ 31) (rs : List SendResult) :
    StaysInRange left (.sent n :: rs) ↔ StaysInRange (left - n) rs := by
  obtain ⟨m, rfl⟩ : ∃ m, n = m + 1 := ⟨n - 1, by omega⟩
  simp only [StaysInRange, accepted]
  omega

/-- Before a call that sends nothing, all depends on the length it asks for. -/
theorem staysInRange_of_accepted {left : ℕ} {rs : List SendResult} (h : accepted rs = 0)
    (hpos : 0 < left) :
    StaysInRange left rs ↔ 0 < left % 2 ^ 32 ∧ left % 2 ^ 32 < 2 ^ 31 := by
  simp only [StaysInRange, h]
  omega

theorem StaysInRange.now {left : ℕ} {rs : List SendResult} (h : StaysInRange left rs)
    (hpos : 0 < left) : 0 < left % 2 ^ 32 ∧ left % 2 ^ 32 < 2 ^ 31 := by
  simp only [StaysInRange] at h
  omega

section Loop
variable (api : SocketApi) {data : Bytes} {total : ℕ}

theorem sendLoop_of_le (h : data.length ≤ total) (rs : List SendResult) :
    sendLoop api data rs total = ⟨[], some true⟩ := by
  rw [sendLoop, if_neg (Nat.not_lt.mpr h)]

theorem sendLoop_nil (h : total < data.length) :
    sendLoop api data [] total =
      ⟨[⟨total, api.length (narrow (data.length - total : ℕ)), none⟩], none⟩ := by
  rw [sendLoop, if_pos h, Nat.cast_sub h.le]

/-- A call that fails is the last one. -/
theorem sendLoop_failed (h : total < data.length) {r : SendResult} (hr : api.sent r ≤ 0)
    (rs : List SendResult) :
    sendLoop api data (r :: rs) total =
      ⟨[⟨total, api.length (narrow (data.length - total : ℕ)), some r⟩], some false⟩ := by
  rw [sendLoop, if_pos h, Nat.cast_sub h.le]
  simp only [hr, if_true]

/-- After a call that sent something the loop goes on behind it. -/
theorem sendLoop_sent (h : total < data.length) {r : SendResult} {n : ℕ} (hn : 0 < n)
    (hr : api.sent r = n) (rs : List SendResult) :
    sendLoop api data (r :: rs) total =
      ⟨⟨total, api.length (narrow (data.length - total : ℕ)), some r⟩ ::
          (sendLoop api data rs (total + n)).calls,
        (sendLoop api data rs (total + n)).returned⟩ := by
  have hpos : ¬ (n : ℤ) ≤ 0 := by omega
  rw [sendLoop, if_pos h, Nat.cast_sub h.le]
  simp only [hr, hpos, if_false, Int.toNat_natCast]

/-- The first call of the loop. -/
theorem first_call (h : total < data.length) (rs : List SendResult) :
    ⟨total, api.length (narrow (data.length - total : ℕ)), rs.head?⟩ ∈
      (sendLoop api data rs total).calls := by
  rw [sendLoop, if_pos h, ← Nat.cast_sub h.le]
  cases rs with
  | nil => exact List.mem_cons_self
  | cons r rs =>
      dsimp only
      split <;> exact List.mem_cons_self

/-- If nothing is left, or too much for an `int`, the first turn decides. -/
theorem sendLoop_transmits_iff_of_not (hfits : data.length < 2 ^ 63) (rs : List SendResult)
    (htotal : total ≤ data.length)
    (h : ¬ (0 < (data.length - total) % 2 ^ 32 ∧ (data.length - total) % 2 ^ 32 < 2 ^ 31)) :
    (sendLoop api data rs total).Transmits data total ↔
      StaysInRange (data.length - total) rs := by
  rcases Nat.lt_or_eq_of_le htotal with hlt | heq
  · have hpos : 0 < data.length - total := Nat.sub_pos_of_lt hlt
    have hcall := first_call api hlt rs
    refine iff_of_false (fun T => h ?_) (fun S => h (S.now hpos))
    rw [← length_narrow_iff api (by omega) hpos, Nat.cast_sub hlt.le]
    rw [Nat.cast_sub hlt.le] at hcall
    exact T.asks _ hcall
  · rw [sendLoop_of_le api heq.ge]
    exact iff_of_true (SendRun.transmits_nil heq.ge) (.inl (by omega))

/-- If the first call sends nothing, the first turn decides as well. -/
theorem transmits_last_iff_staysInRange (hfits : data.length < 2 ^ 63) (h : total < data.length)
    {result : Option SendResult} {returned : Option Bool} {rs : List SendResult}
    (hrs : accepted rs = 0) (hwire : ∀ length, SendCall.transmitted data ⟨total, length, result⟩ = [])
    (htrue : returned ≠ some true)
    (hfalse : ∀ length, returned = some false ↔ SendCall.Failed ⟨total, length, result⟩) :
    SendRun.Transmits data total
        ⟨[⟨total, api.length (narrow (data.length - total : ℕ)), result⟩], returned⟩ ↔
      StaysInRange (data.length - total) rs := by
  have hpos : 0 < data.length - total := Nat.sub_pos_of_lt h
  rw [SendRun.transmits_last_iff h (hwire _) htrue (hfalse _), staysInRange_of_accepted hrs hpos,
    ← length_narrow_iff api (by omega) hpos, Nat.cast_sub h.le]

/-- **The loop of `send_all`** transmits what is left if and only if the narrowed number of bytes
left stays positive until the end or the first failure. By induction on the results. -/
theorem sendLoop_transmits_iff (hfits : data.length < 2 ^ 63) (rs : List SendResult)
    (htotal : total ≤ data.length) (honest : (sendLoop api data rs total).Honest) :
    (sendLoop api data rs total).Transmits data total ↔
      StaysInRange (data.length - total) rs := by
  induction rs generalizing total with
  | nil =>
      rcases Nat.lt_or_eq_of_le htotal with hlt | heq
      · rw [sendLoop_nil api hlt]
        exact transmits_last_iff_staysInRange api hfits hlt rfl (fun _ => rfl) (by simp)
          (by simp [SendCall.Failed])
      · exact sendLoop_transmits_iff_of_not api hfits [] htotal (by omega)
  | cons r rs ih =>
      by_cases hgood : 0 < (data.length - total) % 2 ^ 32 ∧
          (data.length - total) % 2 ^ 32 < 2 ^ 31
      · have hlt : total < data.length := by omega
        rcases r with _ | _ | n
        · rw [sendLoop_failed api hlt (by simp [sent_error])]
          exact transmits_last_iff_staysInRange api hfits hlt rfl (fun _ => rfl) (by simp)
            (by simp [SendCall.Failed])
        · rw [sendLoop_failed api hlt (by simp [sent_eq])]
          exact transmits_last_iff_staysInRange api hfits hlt rfl (fun _ => rfl) (by simp)
            (by simp [SendCall.Failed])
        · -- The call sends `n + 1` bytes, no more than the positive number it was asked for.
          have hasks := (length_narrow_iff api (by omega) (Nat.sub_pos_of_lt hlt)).mpr hgood
          have hn : n + 1 ≤ (data.length - total) % 2 ^ 32 := by
            have hle := of_decide_eq_true (honest _ (first_call api hlt _))
            rw [length_narrow_eq api hgood.2] at hle
            exact Int.ofNat_le.mp hle
          have hsent : api.sent (.sent (n + 1)) = (n + 1 : ℕ) := sent_eq api (by omega)
          have hnext : total + (n + 1) ≤ data.length := by omega
          rw [sendLoop_sent api hlt n.succ_pos hsent] at honest ⊢
          rw [Nat.cast_sub hlt.le] at hasks
          rw [Nat.cast_sub hlt.le, SendRun.transmits_cons_iff n.succ_pos hnext hasks,
            ih hnext fun c hc => honest c (List.mem_cons_of_mem _ hc), ← Nat.sub_sub,
            staysInRange_sent n.succ_pos hn hgood.2]
      · exact sendLoop_transmits_iff_of_not api hfits (r :: rs) htotal hgood

end Loop

/-- **When `send_all` transmits exactly its input.** Below `2 ^ 31` bytes always. From there on if
and only if the lowest 32 bits of the length are below `2 ^ 31` and `send` fails, or is still
waiting, before that many bytes are accepted. -/
theorem sendAll_transmits_iff (api : SocketApi) (data : StdString) (rs : List SendResult)
    (honest : (sendAll api data rs).Honest) :
    (sendAll api data rs).Transmits data.bytes 0 ↔
      data.bytes.length < 2 ^ 31 ∨
        (data.bytes.length % 2 ^ 32 < 2 ^ 31 ∧ accepted rs < data.bytes.length % 2 ^ 32) :=
  sendLoop_transmits_iff api data.fits rs (Nat.zero_le _) honest

/-- Three bytes in two parts. -/
theorem sendAll_transmits_parts :
    (sendAll .posix ⟨[1, 2, 3], by decide⟩ [.sent 2, .sent 1]).Transmits [1, 2, 3] 0 :=
  (sendAll_transmits_iff .posix ⟨[1, 2, 3], by decide⟩ [.sent 2, .sent 1] (by decide)).mpr
    (.inl (by decide))

/-- A response of `2 ^ 31` zeros. -/
def twoGigabytes : StdString := ⟨List.replicate (2 ^ 31) 0, by rw [List.length_replicate]; omega⟩

/-- Its length is not an `int`: the first call asks for more than `2 ^ 31` bytes. -/
theorem sendAll_asks_too_much :
    (sendAll .posix twoGigabytes []).calls = [⟨0, 2 ^ 64 - 2 ^ 31, none⟩] ∧
      ¬ (sendAll .posix twoGigabytes []).Transmits twoGigabytes.bytes 0 := by
  have hlen : twoGigabytes.bytes.length = 2 ^ 31 := List.length_replicate
  have hcall : (sendAll .posix twoGigabytes []).calls = [⟨0, 2 ^ 64 - 2 ^ 31, none⟩] := by
    rw [sendAll, sendLoop_nil _ (by rw [hlen]; omega), hlen]
    rfl
  refine ⟨hcall, fun T => ?_⟩
  have hasks := (T.asks _ (hcall ▸ List.mem_cons_self)).2
  rw [hlen] at hasks
  simp at hasks

end MiniRedis
