import PouchNode.Downlink

/-! What one pass of pouch_downlink_push does while allocation succeeds. Two equations
say it all: one for the block at the front of the buffer, one for the whole pass. -/
namespace Pouch
open Octets
variable {κ ι : Type*} {cfg : Config} {env : DownlinkEnv κ ι}

def IsBlock (b : Buf) : Prop := b.length = 2 + getBe16 b

instance (b : Buf) : Decidable (IsBlock b) := inferInstanceAs (Decidable (_ = _))

/- The front of the buffer is complete. The parser wants a third byte before it looks. -/
def Ready (buf : Buf) : Prop := 2 < buf.length ∧ 2 + getBe16 buf ≤ buf.length

instance (buf : Buf) : Decidable (Ready buf) := inferInstanceAs (Decidable (_ ∧ _))

def Oversize (cfg : Config) (buf : Buf) : Prop :=
  2 < buf.length ∧ cfg.maxBlockSizeFieldValue < getBe16 buf

instance (buf : Buf) : Decidable (Oversize cfg buf) := inferInstanceAs (Decidable (_ ∧ _))

theorem isBlock_take {buf : Buf} (h : Ready buf) : IsBlock (buf.take (2 + getBe16 buf)) := by
  have hf : getBe16 (buf.take (2 + getBe16 buf)) = getBe16 buf := by
    apply getBe16_eq_of_take
    rw [List.take_take]
    congr 1
    omega
  rw [IsBlock, hf, List.length_take]
  exact Nat.min_eq_left h.2

/-- The second half of a pass, once the allocator is known to answer. -/
theorem pushBlock_eq (env : DownlinkEnv κ ι) (s : Downlink κ) {buf : Buf}
    (hb : buf.length ≤ cfg.maxCiphertextBlockSize)
    (ha : env.bufAlloc s.allocs = true) :
    pushBlock cfg env s buf =
      if Oversize cfg buf then ({ s with pouchBuf := some buf }, some .badBlockSize)
      else if Ready buf then
        ({ s with
            pouchBuf := some (buf.drop (2 + getBe16 buf))
            decrypt := s.decrypt.submit (buf.take (2 + getBe16 buf))
            allocs := s.allocs + 1 }, none)
      else ({ s with pouchBuf := some buf }, none) := by
  have hlt : buf.length < 2^cfg.sizeBits := lt_of_le_of_lt hb cfg.maxCiphertextBlockSize_lt
  have hinit : pouchBufviewAvailable cfg ⟨some buf, 0⟩ = buf.length := available_init cfg hlt
  unfold pushBlock
  by_cases h2 : 2 < buf.length
  · have hv : pouchBufviewAvailable cfg ⟨some buf, 2⟩ = buf.length - 2 :=
      available_some cfg (by omega) hlt
    simp only [hinit, h2, if_true, pouchBufviewReadBe16, pouchBufviewInit, Bufview.rest,
      Option.getD_some, List.drop_zero, Nat.zero_add, hv, Oversize, Ready, true_and]
    by_cases ho : cfg.maxBlockSizeFieldValue < getBe16 buf
    · simp [ho]
    · by_cases hr : getBe16 buf ≤ buf.length - 2
      · have hr' : 2 + getBe16 buf ≤ buf.length := by omega
        have hsub : cfg.sizeSub (buf.length - 2) (getBe16 buf) = buf.length - 2 - getBe16 buf :=
          cfg.sizeSub_eq hr (by omega)
        simp only [ho, if_false, hr, if_true, hr', Downlink.alloc, ha, pouchBufviewRead, hv,
          hsub, Nat.not_lt_zero, Option.getD_some, Bufview.rest, List.drop_drop, bufWrite,
          List.nil_append, blockDownlinkPush, bufTrimEnd_eq]
        by_cases he : getBe16 buf < buf.length - 2
        · have hlen : buf.length - (buf.length - 2 - getBe16 buf) = 2 + getBe16 buf := by omega
          have hall : (buf.drop (2 + getBe16 buf)).take (buf.length - 2 - getBe16 buf) =
              buf.drop (2 + getBe16 buf) := by
            apply List.take_of_length_le
            simp only [List.length_drop]
            omega
          simp only [he, if_true, hlen, hall]
        · have hn : 2 + getBe16 buf = buf.length := by omega
          simp [he, hn]
      · have hr' : ¬ 2 + getBe16 buf ≤ buf.length := by omega
        simp [ho, hr, hr']
  · simp [pouchBufviewInit, hinit, h2, Oversize, Ready]

def room (cfg : Config) (buf input : Buf) : Buf :=
  input.take (cfg.maxCiphertextBlockSize - buf.length)

theorem room_eq (buf input : Buf) :
    input.take (min input.length (cfg.maxCiphertextBlockSize - buf.length)) = room cfg buf input ∧
    input.drop (min input.length (cfg.maxCiphertextBlockSize - buf.length)) =
      input.drop (room cfg buf input).length := by
  constructor
  · rw [room, ← List.take_eq_take_iff.mpr]
    omega
  · rw [room, List.length_take, Nat.min_comm]

theorem length_append_room {buf : Buf} (input : Buf) (hb : buf.length ≤ cfg.maxCiphertextBlockSize) :
    (buf++room cfg buf input).length ≤ cfg.maxCiphertextBlockSize := by
  simp only [room, List.length_append, List.length_take]
  omega

theorem room_append_drop (cfg : Config) (buf input : Buf) :
    room cfg buf input++input.drop (room cfg buf input).length = input := by
  simp only [room, List.length_take]
  conv_rhs => rw [← List.take_append_drop (cfg.maxCiphertextBlockSize - buf.length) input]
  congr 1
  rcases Nat.le_total (cfg.maxCiphertextBlockSize - buf.length) input.length with h | h
  · rw [Nat.min_eq_left h]
  · rw [Nat.min_eq_right h, List.drop_length, List.drop_eq_nil_of_le h]

theorem pushPass_blocks (env : DownlinkEnv κ ι) {s : Downlink κ} {buf : Buf} (input : Buf)
    (hs : s.pouchBuf = some buf)
    (hh : s.pouchHeader = true) (hb : buf.length < cfg.maxCiphertextBlockSize) :
    pushPass cfg env s input =
      let r := pushBlock cfg env s (buf++room cfg buf input)
      ⟨room cfg buf input, input.drop (room cfg buf input).length, r.1, r.2⟩ := by
  have hn : ¬ cfg.maxCiphertextBlockSize ≤ buf.length := by omega
  simp only [pushPass, hs, bufSizeGet, hn, if_false, hh, if_true, bufWrite, room_eq]

theorem pushPass_header (env : DownlinkEnv κ ι) {s : Downlink κ} {buf : Buf} (input : Buf)
    (hs : s.pouchBuf = some buf)
    (hh : s.pouchHeader = false) (hb : buf.length < cfg.maxCiphertextBlockSize) :
    pushPass cfg env s input =
      match env.cborDecodePouchHeader (buf++room cfg buf input) with
      | none => ⟨room cfg buf input, input.drop (room cfg buf input).length,
          { s with pouchBuf := some (buf++room cfg buf input) }, some .badHeader⟩
      | some (info, headerLen) =>
        match env.cryptoDownlinkStart info s.crypto with
        | (.err _, crypto) => ⟨room cfg buf input, input.drop (room cfg buf input).length,
            { s with pouchBuf := some (buf++room cfg buf input), crypto }, some .badHeader⟩
        | (.ok, crypto) =>
          let r := pushBlock cfg env { s with pouchHeader := true, crypto }
            ((buf++room cfg buf input).drop headerLen)
          ⟨room cfg buf input, input.drop (room cfg buf input).length, r.1, r.2⟩ := by
  have hn : ¬ cfg.maxCiphertextBlockSize ≤ buf.length := by omega
  have hlt : (buf++room cfg buf input).length < 2^cfg.sizeBits :=
    lt_of_le_of_lt (length_append_room input (by omega)) cfg.maxCiphertextBlockSize_lt
  have hv : pouchBufviewAvailable cfg ⟨some (buf++room cfg buf input), 0⟩ =
      (buf++room cfg buf input).length := available_init cfg hlt
  simp only [pushPass, hs, bufSizeGet, hn, if_false, hh, Bool.false_eq_true, bufWrite, room_eq,
    pouchDownlinkParseHeader, pouchBufviewRead, Nat.not_lt_zero, Option.getD_some, hv,
    Bufview.rest, pouchBufviewInit, List.drop_zero, List.take_length, bufTrimStart_eq]
  cases env.cborDecodePouchHeader (buf++room cfg buf input) with
  | none => rfl
  | some r =>
    obtain ⟨info, headerLen⟩ := r
    cases hc : env.cryptoDownlinkStart info s.crypto with
    | mk ret crypto => cases ret <;> simp [hc]

end Pouch
