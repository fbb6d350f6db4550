import PouchNode.Uplink

/-! The two loops of the uplink. process_blocks appends to the transport queue what the
crypto layer makes of the blocks; pouch_uplink_fill cuts the front off the bytes that are
waiting, wherever buffers begin and end. -/
namespace Pouch
variable {κ : Type*} {cfg : Config}

def ReaderOk (cfg : Config) (reader : Bufview) : Prop :=
  ∀ buf, reader.buf = some buf → reader.offset ≤ buf.length ∧ buf.length < 2^cfg.sizeBits

def waitingBytes (reader : Bufview) (queue : BufQueue) : Buf := reader.rest++queue.flatten

theorem available_rest {reader : Bufview} (h : ReaderOk cfg reader) :
    pouchBufviewAvailable cfg reader = reader.rest.length := by
  obtain ⟨buf, offset⟩ := reader
  cases buf with
  | none => simp [pouchBufviewAvailable, Bufview.rest]
  | some buf =>
    obtain ⟨ho, hb⟩ := h buf rfl
    rw [available_some cfg ho hb]
    simp [Bufview.rest]

theorem isReady_iff {reader : Bufview} (h : ReaderOk cfg reader) :
    pouchBufviewIsReady cfg reader = true ↔ reader.rest ≠ [] := by
  rw [pouchBufviewIsReady, available_rest h]
  obtain ⟨buf, offset⟩ := reader
  cases buf with
  | none => simp [Bufview.rest]
  | some buf => simp [Bufview.rest]

theorem readerOk_init {buf : Buf} (h : buf.length < 2^cfg.sizeBits) :
    ReaderOk cfg (pouchBufviewInit buf) := by
  intro b hb
  cases hb
  exact ⟨Nat.zero_le _, h⟩

theorem readerOk_free (reader : Bufview) : ReaderOk cfg (pouchBufviewFree reader) := by
  intro b hb
  cases hb

@[simp] theorem rest_init (buf : Buf) : (pouchBufviewInit buf).rest = buf := rfl
@[simp] theorem rest_free (reader : Bufview) : (pouchBufviewFree reader).rest = [] := rfl

/-- Copying out takes the front and leaves the rest. -/
theorem memcpy_spec {reader : Bufview} (h : ReaderOk cfg reader) (n : Nat) :
    (pouchBufviewMemcpy cfg reader n).1 = reader.rest.take n ∧
    (pouchBufviewMemcpy cfg reader n).2.rest = reader.rest.drop n ∧
    ReaderOk cfg (pouchBufviewMemcpy cfg reader n).2 := by
  have hav := available_rest h
  obtain ⟨buf, offset⟩ := reader
  cases buf with
  | none => simp [pouchBufviewMemcpy, Bufview.rest, ReaderOk]
  | some buf =>
    obtain ⟨ho, hb⟩ := h buf rfl
    dsimp only at ho
    simp only [Bufview.rest, Option.getD_some, List.length_drop] at hav
    simp only [pouchBufviewMemcpy, Bufview.rest, Option.getD_some, hav]
    refine ⟨?_, ?_, ?_⟩
    · rw [List.take_eq_take_iff]
      simp
    · rw [List.drop_drop]
      by_cases hn : n ≤ buf.length - offset
      · rw [Nat.min_eq_left hn]
      · rw [Nat.min_eq_right (by omega), List.drop_eq_nil_of_le (by omega),
          List.drop_eq_nil_of_le (by omega)]
    · intro b hbuf
      cases hbuf
      exact ⟨by dsimp only; omega, hb⟩

def drained (cfg : Config) (reader : Bufview) (room : Nat) : Bufview :=
  let reader := (pouchBufviewMemcpy cfg reader room).2
  if pouchBufviewAvailable cfg reader = 0 then pouchBufviewFree reader else reader

theorem drained_spec {reader : Bufview} (h : ReaderOk cfg reader) (room : Nat) :
    (drained cfg reader room).rest = reader.rest.drop room ∧
    ReaderOk cfg (drained cfg reader room) ∧
    (room - reader.rest.length = 0 ∨ pouchBufviewIsReady cfg (drained cfg reader room) = false) := by
  obtain ⟨-, hrest, hok⟩ := memcpy_spec h room
  have hav := available_rest hok
  rw [hrest] at hav
  have hd : (drained cfg reader room).rest = reader.rest.drop room ∧
      ReaderOk cfg (drained cfg reader room) := by
    by_cases hz : pouchBufviewAvailable cfg (pouchBufviewMemcpy cfg reader room).2 = 0
    · have hnil : reader.rest.drop room = [] := List.length_eq_zero_iff.mp (by omega)
      rw [drained, if_pos hz, hnil]
      exact ⟨rfl, readerOk_free _⟩
    · rw [drained, if_neg hz]
      exact ⟨hrest, hok⟩
  refine ⟨hd.1, hd.2, ?_⟩
  by_cases hle : room ≤ reader.rest.length
  · left
    omega
  · right
    have hnil : reader.rest.drop room = [] := List.drop_eq_nil_of_le (by omega)
    rw [Bool.eq_false_iff, Ne, isReady_iff hd.2, hd.1, hnil]
    simp

theorem take_drop_two_steps (front back : Buf) (n : Nat) :
    (front++back).take n = front.take n++(front.drop n++back).take (n - front.length) ∧
    (front++back).drop n = (front.drop n++back).drop (n - front.length) := by
  by_cases hle : n ≤ front.length
  · have hz : n - front.length = 0 := by omega
    rw [List.take_append_of_le_length hle, List.drop_append_of_le_length hle, hz, List.take_zero,
      List.append_nil, List.drop_zero]
    exact ⟨rfl, rfl⟩
  · have hnil : front.drop n = [] := List.drop_eq_nil_of_le (by omega)
    rw [hnil, List.nil_append, List.take_append, List.drop_append, hnil, List.nil_append]
    exact ⟨rfl, rfl⟩

structure FillSpec (cfg : Config) (room : Nat) (reader : Bufview) (queue : BufQueue)
    (result : Buf × Bufview × BufQueue) : Prop where
  bytes : result.1 = (waitingBytes reader queue).take room
  waiting : waitingBytes result.2.1 result.2.2 = (waitingBytes reader queue).drop room
  reader : ReaderOk cfg result.2.1
  queue : ∀ buf ∈ result.2.2, buf ∈ queue

theorem fillSpec_zero {reader : Bufview} (hr : ReaderOk cfg reader) (queue : BufQueue) :
    FillSpec cfg 0 reader queue ([], reader, queue) :=
  ⟨rfl, rfl, hr, fun _ hb => hb⟩

theorem fillSpec_pass {reader : Bufview} {queue : BufQueue} {room : Nat}
    (hr : ReaderOk cfg reader) {result : Buf × Bufview × BufQueue}
    (h : FillSpec cfg (room - reader.rest.length) (drained cfg reader room) queue result) :
    FillSpec cfg room reader queue
      ((pouchBufviewMemcpy cfg reader room).1++result.1, result.2.1, result.2.2) := by
  obtain ⟨hbytes, -, -⟩ := memcpy_spec hr room
  obtain ⟨hrest, -, -⟩ := drained_spec hr room
  have hwaiting : waitingBytes (drained cfg reader room) queue =
      reader.rest.drop room++queue.flatten := by rw [waitingBytes, hrest]
  obtain ⟨htake, hdrop⟩ := take_drop_two_steps reader.rest queue.flatten room
  refine ⟨?_, ?_, h.reader, h.queue⟩
  · rw [hbytes, h.bytes, hwaiting, waitingBytes, htake]
  · rw [h.waiting, hwaiting, waitingBytes, hdrop]

def fillPass (cfg : Config) (passes room : Nat) (reader : Bufview) (queue : BufQueue) :
    Buf × Bufview × BufQueue :=
  let bytes := (pouchBufviewMemcpy cfg reader room).1
  let rest := fillLoop cfg passes (room - bytes.length) (drained cfg reader room) queue
  (bytes++rest.1, rest.2)

theorem fillLoop_ready {passes room : Nat} {reader : Bufview} {queue : BufQueue} (hz : room ≠ 0)
    (hready : pouchBufviewIsReady cfg reader = true) :
    fillLoop cfg (passes + 1) room reader queue = fillPass cfg passes room reader queue := by
  simp [fillLoop, fillPass, hz, hready, drained]

theorem fillLoop_next {passes room : Nat} {reader : Bufview} {buf : Buf} {queue : BufQueue}
    (hz : room ≠ 0) (hready : pouchBufviewIsReady cfg reader = false) :
    fillLoop cfg (passes + 1) room reader (buf :: queue) =
      fillPass cfg passes room (pouchBufviewInit buf) queue := by
  simp [fillLoop, fillPass, hz, hready, bufQueueGet, drained]

theorem fillLoop_empty {passes room : Nat} {reader : Bufview} (hz : room ≠ 0)
    (hready : pouchBufviewIsReady cfg reader = false) :
    fillLoop cfg (passes + 1) room reader [] = ([], reader, []) := by
  simp [fillLoop, hz, hready, bufQueueGet]

def Passes (cfg : Config) (passes room : Nat) (reader : Bufview) (queue : BufQueue) : Prop :=
  room = 0 ∨ queue.length + (if pouchBufviewIsReady cfg reader then 1 else 0) < passes

theorem fillLoop_spec (passes room : Nat) (reader : Bufview) (queue : BufQueue)
    (hr : ReaderOk cfg reader) (hq : ∀ buf ∈ queue, buf.length < 2^cfg.sizeBits)
    (hp : Passes cfg passes room reader queue) :
    FillSpec cfg room reader queue (fillLoop cfg passes room reader queue) := by
  induction passes generalizing room reader queue with
  | zero =>
    have hz : room = 0 := hp.resolve_right (Nat.not_lt_zero _)
    subst hz
    exact fillSpec_zero hr queue
  | succ passes ih =>
    by_cases hz : room = 0
    · subst hz
      exact fillSpec_zero hr queue
    have hpasses := hp.resolve_left hz
    -- the rest of the loop has one buffer less to go, or no room
    have hpass : ∀ r q, ReaderOk cfg r → (∀ buf ∈ q, buf.length < 2^cfg.sizeBits) →
        q.length < passes → FillSpec cfg room r q (fillPass cfg passes room r q) := by
      intro r q hrok hqok hlen
      obtain ⟨-, hdok, hdone⟩ := drained_spec hrok room
      have hleft : room - (pouchBufviewMemcpy cfg r room).1.length = room - r.rest.length := by
        rw [(memcpy_spec hrok room).1, List.length_take]
        omega
      simp only [fillPass]
      rw [hleft]
      apply fillSpec_pass hrok
      apply ih _ _ _ hdok hqok
      cases hdone with
      | inl hfull => exact Or.inl hfull
      | inr hused => exact Or.inr (by simpa [hused] using hlen)
    cases hready : pouchBufviewIsReady cfg reader with
    | true =>
      rw [fillLoop_ready hz hready]
      exact hpass reader queue hr hq (by simpa [hready] using hpasses)
    | false =>
      have hempty : reader.rest = [] := by
        by_contra hne
        exact absurd ((isReady_iff hr).mpr hne) (by simp [hready])
      cases queue with
      | nil =>
        rw [fillLoop_empty hz hready]
        refine ⟨?_, ?_, hr, fun _ hb => hb⟩ <;> simp [waitingBytes, hempty]
      | cons buf queue =>
        have hstep := hpass (pouchBufviewInit buf) queue (readerOk_init (hq buf (by simp)))
          (fun b hb => hq b (by simp [hb])) (by simpa [hready] using hpasses)
        have hwaiting : waitingBytes reader (buf :: queue) =
            waitingBytes (pouchBufviewInit buf) queue := by simp [waitingBytes, hempty]
        rw [fillLoop_next hz hready]
        refine ⟨?_, ?_, hstep.reader, fun b hb => List.mem_cons_of_mem _ (hstep.queue b hb)⟩
        · rw [hwaiting, hstep.bytes]
        · rw [hwaiting, hstep.waiting]

section
variable (crypto : CryptoOps cfg κ)

def encryptBlocks : κ → List Buf → List Buf × κ
  | k, [] => ([], k)
  | k, block :: blocks =>
    let (encrypted, k) := crypto.encryptBlock k block
    let (rest, k) := encryptBlocks k blocks
    (encrypted.toList++rest, k)

theorem encryptBlocks_append (k : κ) (bs cs : List Buf) :
    encryptBlocks crypto k (bs++cs) =
      ((encryptBlocks crypto k bs).1++(encryptBlocks crypto (encryptBlocks crypto k bs).2 cs).1,
        (encryptBlocks crypto (encryptBlocks crypto k bs).2 cs).2) := by
  induction bs generalizing k with
  | nil => rfl
  | cons b bs ih => simp [encryptBlocks, ih]

def withHeader (header : Option Buf) (sent : List Buf) : List Buf :=
  if sent = [] then [] else header.toList++sent

def headerLeft (header : Option Buf) (sent : List Buf) : Option Buf :=
  if sent = [] then header else none

theorem withHeader_append (header : Option Buf) (bs cs : List Buf) :
    withHeader header (bs++cs) = withHeader header bs++withHeader (headerLeft header bs) cs := by
  by_cases hb : bs = []
  · simp [withHeader, headerLeft, hb]
  · by_cases hc : cs = []
    · simp [withHeader, hb, hc]
    · simp [withHeader, headerLeft, hb, hc]

theorem headerLeft_append (header : Option Buf) (bs cs : List Buf) :
    headerLeft header (bs++cs) = headerLeft (headerLeft header bs) cs := by
  by_cases hb : bs = []
  · simp [headerLeft, hb]
  · by_cases hc : cs = []
    · simp [headerLeft, hb, hc]
    · simp [headerLeft, hb, hc]

/-- process_blocks takes the whole queue and sends what the crypto layer makes of it. -/
theorem processLoop_spec (queue : BufQueue) (header : Option Buf) (transport : BufQueue) (k : κ) :
    (processLoop crypto queue header transport k).1 =
      (headerLeft header (encryptBlocks crypto k queue).1,
        transport++withHeader header (encryptBlocks crypto k queue).1,
        (encryptBlocks crypto k queue).2) ∧
    (processLoop crypto queue header transport k).2.map Prod.fst = queue ∧
    (processLoop crypto queue header transport k).2.filterMap Prod.snd =
      (encryptBlocks crypto k queue).1 := by
  induction queue generalizing header transport k with
  | nil => simp [processLoop, encryptBlocks, headerLeft, withHeader]
  | cons block queue ih =>
    cases he : crypto.encryptBlock k block with
    | mk encrypted k' =>
      cases encrypted with
      | none =>
        obtain ⟨hstate, hblocks, hsent⟩ := ih header transport k'
        simp [processLoop, encryptBlocks, he, hstate, hblocks, hsent]
      | some c =>
        cases header with
        | none =>
          obtain ⟨hstate, hblocks, hsent⟩ := ih none (transport++[c]) k'
          simp only [processLoop, encryptBlocks, he, bufQueueSubmit]
          refine ⟨?_, congrArg (block :: ·) hblocks, congrArg (c :: ·) hsent⟩
          rw [hstate]
          by_cases hrest : (encryptBlocks crypto k' queue).1 = []
          · simp [headerLeft, withHeader, hrest]
          · simp [headerLeft, withHeader, hrest]
        | some h =>
          obtain ⟨hstate, hblocks, hsent⟩ := ih none (transport++[h]++[c]) k'
          simp only [processLoop, encryptBlocks, he, bufQueueSubmit]
          refine ⟨?_, congrArg (block :: ·) hblocks, congrArg (c :: ·) hsent⟩
          rw [hstate]
          by_cases hrest : (encryptBlocks crypto k' queue).1 = []
          · simp [headerLeft, withHeader, hrest]
          · simp [headerLeft, withHeader, hrest]

theorem encryptBlocks_lt (k : κ) (blocks : List Buf) :
    ∀ c ∈ (encryptBlocks crypto k blocks).1, c.length < 2^cfg.sizeBits := by
  induction blocks generalizing k with
  | nil => simp [encryptBlocks]
  | cons b blocks ih =>
    intro c hc
    simp only [encryptBlocks, List.mem_append, Option.mem_toList] at hc
    cases hc with
    | inl hb => exact crypto.encrypt_lt k b c hb
    | inr hrest => exact ih _ c hrest

end
end Pouch
