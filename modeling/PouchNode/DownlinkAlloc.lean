import PouchNode.DownlinkReassembly
import PouchNode.DownlinkQueue

/-! What pouch_downlink_push queues when allocations fail. The bytes behind a complete block
are only split off if there is a new buffer to put them into; without one they stay in the
buffer that is queued. -/
namespace Pouch
open Octets Machine
variable {κ ι : Type*}

structure BlockWithMore (cfg : Config) (buf : Buf) : Prop where
  supported : ¬ Oversize cfg buf
  ready : Ready buf
  more : 2 + getBe16 buf < buf.length

def queuedFrom (cfg : Config) (buf : Buf) (alloc : Bool) : List Buf :=
  if ¬ Oversize cfg buf ∧ Ready buf then
    [if alloc then buf.take (2 + getBe16 buf) else buf]
  else []

theorem queuedFrom_blocks_iff (cfg : Config) (buf : Buf) (alloc : Bool) :
    (∀ b ∈ queuedFrom cfg buf alloc, IsBlock b) ↔ (BlockWithMore cfg buf → alloc = true) := by
  by_cases hc : ¬ Oversize cfg buf ∧ Ready buf
  · simp only [queuedFrom, hc, not_false_eq_true, and_self, if_true, List.mem_singleton,
      forall_eq]
    cases alloc with
    | true => simp [isBlock_take hc.2]
    | false =>
      simp only [Bool.false_eq_true, if_false, imp_false, IsBlock]
      constructor
      · intro hblock h
        have hmore := h.more
        omega
      · intro h
        by_contra hne
        have hle := hc.2.2
        exact h ⟨hc.1, hc.2, by omega⟩
  · refine iff_of_true (by simp [queuedFrom, hc]) fun h => absurd ⟨h.supported, h.ready⟩ hc

section
variable (cfg : Config) (env : DownlinkEnv κ ι)

/- The bytes in which a pass looks for a block: what the buffer holds with the input that
   still fits, less the header if it is complete now. -/
def frontBytes (s : Downlink κ) (input : Buf) : Option Buf :=
  s.pouchBuf.bind fun buf =>
    if cfg.maxCiphertextBlockSize ≤ buf.length then none
    else if s.pouchHeader then some (buf++room cfg buf input)
    else (env.cborDecodePouchHeader (buf++room cfg buf input)).bind fun r =>
      match (env.cryptoDownlinkStart r.1 s.crypto).1 with
      | .ok => some ((buf++room cfg buf input).drop r.2)
      | .err _ => none

def loopHeads : Nat → Downlink κ → Buf → List (Downlink κ × Buf)
  | 0, _, _ => []
  | _, _, [] => []
  | fuel+1, s, input =>
    let p := pushPass cfg env s input
    (s, input) :: match p.exit with
    | some _ => []
    | none => loopHeads fuel p.state p.rest

theorem pushBlock_queue (s : Downlink κ) {buf : Buf}
    (hb : buf.length ≤ cfg.maxCiphertextBlockSize) :
    (pushBlock cfg env s buf).1.decrypt.queue =
      s.decrypt.queue++queuedFrom cfg buf (env.bufAlloc s.allocs) := by
  cases ha : env.bufAlloc s.allocs with
  | true =>
    rw [pushBlock_eq env s hb ha]
    by_cases ho : Oversize cfg buf
    · simp [queuedFrom, ho]
    by_cases hr : Ready buf
    · simp [queuedFrom, ho, hr, WorkQueue.submit, bufQueueSubmit]
    · simp [queuedFrom, ho, hr]
  | false =>
    have hlt : buf.length < 2^cfg.sizeBits := lt_of_le_of_lt hb cfg.maxCiphertextBlockSize_lt
    have hinit : pouchBufviewAvailable cfg ⟨some buf, 0⟩ = buf.length := available_init cfg hlt
    by_cases h2 : 2 < buf.length
    · have hv : pouchBufviewAvailable cfg ⟨some buf, 2⟩ = buf.length - 2 :=
        available_some cfg (by omega) hlt
      have hready : Ready buf ↔ getBe16 buf ≤ buf.length - 2 := by
        rw [Ready]
        omega
      simp only [pushBlock, pouchBufviewInit, hinit, h2, if_true, pouchBufviewReadBe16,
        Bufview.rest, Option.getD_some, List.drop_zero, Nat.zero_add, hv, queuedFrom, hready,
        Oversize, true_and]
      by_cases ho : cfg.maxBlockSizeFieldValue < getBe16 buf
      · simp [ho]
      by_cases hr : getBe16 buf ≤ buf.length - 2
      · simp [ho, hr, Downlink.alloc, ha, blockDownlinkPush, WorkQueue.submit, bufQueueSubmit]
      · simp [ho, hr]
    · simp [pushBlock, pouchBufviewInit, hinit, h2, queuedFrom, Ready]

def MeetsMore (s : Downlink κ) (input : Buf) : Prop :=
  ∃ buf, frontBytes cfg env s input = some buf ∧ BlockWithMore cfg buf

def queuedBy (s : Downlink κ) (input : Buf) : List Buf :=
  match frontBytes cfg env s input with
  | none => []
  | some buf => queuedFrom cfg buf (env.bufAlloc s.allocs)

theorem queuedBy_blocks_iff (s : Downlink κ) (input : Buf) :
    (∀ b ∈ queuedBy cfg env s input, IsBlock b) ↔
      (MeetsMore cfg env s input → env.bufAlloc s.allocs = true) := by
  cases hf : frontBytes cfg env s input with
  | none => simp [queuedBy, MeetsMore, hf]
  | some buf =>
    simp only [queuedBy, MeetsMore, hf, Option.some.injEq]
    rw [queuedFrom_blocks_iff]
    simp

theorem pushPass_queue (s : Downlink κ) (input : Buf) :
    (pushPass cfg env s input).state.decrypt.queue =
      s.decrypt.queue++queuedBy cfg env s input := by
  cases hs : s.pouchBuf with
  | none => simp [pushPass, queuedBy, frontBytes, hs]
  | some buf =>
    by_cases hfull : cfg.maxCiphertextBlockSize ≤ buf.length
    · simp [pushPass, queuedBy, frontBytes, hs, hfull, bufSizeGet]
    have hb : buf.length < cfg.maxCiphertextBlockSize := by omega
    have hlen := length_append_room input hb.le
    cases hh : s.pouchHeader with
    | true =>
      rw [pushPass_blocks env input hs hh hb]
      simpa [queuedBy, frontBytes, hs, hfull, hh] using pushBlock_queue cfg env s hlen
    | false =>
      rw [pushPass_header env input hs hh hb]
      cases hd : env.cborDecodePouchHeader (buf++room cfg buf input) with
      | none => simp [queuedBy, frontBytes, hs, hfull, hh, hd]
      | some r =>
        obtain ⟨info, headerLen⟩ := r
        cases hc : env.cryptoDownlinkStart info s.crypto with
        | mk ret crypto =>
          cases ret with
          | err e => simp [queuedBy, frontBytes, hs, hfull, hh, hd, hc]
          | ok =>
            have hdrop : ((buf++room cfg buf input).drop headerLen).length ≤
                cfg.maxCiphertextBlockSize := by
              rw [List.length_drop]
              omega
            simpa [queuedBy, frontBytes, hs, hfull, hh, hd, hc] using
              pushBlock_queue cfg env { s with pouchHeader := true, crypto } hdrop

/-- A call queues what its passes queue, in their order. -/
theorem pushPasses_queue (fuel : Nat) (s : Downlink κ) (input : Buf) :
    (s.after (pushPasses cfg env fuel s input)).decrypt.queue =
      s.decrypt.queue++(loopHeads cfg env fuel s input).flatMap fun h =>
        queuedBy cfg env h.1 h.2 := by
  induction fuel generalizing s input with
  | zero => simp [pushPasses, loopHeads, Downlink.after]
  | succ fuel ih =>
    cases input with
    | nil => simp [pushPasses, loopHeads, Downlink.after]
    | cons b input =>
      have hpass := pushPass_queue cfg env s (b :: input)
      cases he : (pushPass cfg env s (b :: input)).exit with
      | some e => simp [pushPasses, loopHeads, he, Downlink.after, hpass]
      | none => simp [pushPasses, loopHeads, he, ih, hpass]

inductive ChunkOp where
  | start
  | push (chunk : Buf)
  | decrypt
  | consume

def chunkStep (s : Downlink κ) : ChunkOp → Downlink κ × Option Buf
  | .start => (pouchDownlinkStart env s, none)
  | .push chunk => (pouchDownlinkPush cfg env s chunk, none)
  | .decrypt => pipelineStep env s .decrypt
  | .consume => pipelineStep env s .consume

def AppendsBlocks (s : Downlink κ) (op : ChunkOp) : Prop :=
  ∀ added, (chunkStep cfg env s op).1.decrypt.queue = s.decrypt.queue++added →
    ∀ b ∈ added, IsBlock b

theorem appendsBlocks_of_length_le {s : Downlink κ} {op : ChunkOp}
    (h : (chunkStep cfg env s op).1.decrypt.queue.length ≤ s.decrypt.queue.length) :
    AppendsBlocks cfg env s op := by
  intro added hq b hb
  have hlen := congrArg List.length hq
  rw [List.length_append] at hlen
  have hempty : added = [] := List.eq_nil_of_length_eq_zero (by omega)
  rw [hempty] at hb
  cases hb

theorem decryptStep_length_le (s : Downlink κ) :
    (pipelineStep env s .decrypt).1.decrypt.queue.length ≤ s.decrypt.queue.length := by
  cases hp : s.decrypt.pending with
  | false => simp [pipelineStep, hp]
  | true =>
    cases decryptBlocks_cases env s with
    | inl hr => simp [pipelineStep, hp, hr.2.1]
    | inr hr => simp [pipelineStep, hp, hr.2.1]

theorem consumeStep_decrypt (s : Downlink κ) :
    (pipelineStep env s .consume).1.decrypt = s.decrypt := by
  cases hp : s.consume.pending with
  | false => simp [pipelineStep, hp]
  | true =>
    cases hq : s.consume.queue with
    | nil => simp [pipelineStep, hp, consumeBlocks, bufQueueGet, hq]
    | cons block queue => simp [pipelineStep, hp, consumeBlocks, bufQueueGet, hq]

/-- Only a push appends anything, and it is right exactly if buf_alloc succeeds wherever a
block is followed by more bytes. -/
theorem appendsBlocks_iff (s : Downlink κ) (op : ChunkOp) :
    AppendsBlocks cfg env s op ↔
      ∀ chunk, op = .push chunk → ∀ h ∈ loopHeads cfg env chunk.length s chunk,
        MeetsMore cfg env h.1 h.2 → env.bufAlloc h.1.allocs = true := by
  cases op with
  | start =>
    exact iff_of_true (appendsBlocks_of_length_le cfg env le_rfl) fun _ h => (by cases h)
  | decrypt =>
    exact iff_of_true (appendsBlocks_of_length_le cfg env (decryptStep_length_le env s))
      fun _ h => (by cases h)
  | consume =>
    refine iff_of_true (appendsBlocks_of_length_le cfg env ?_) fun _ h => (by cases h)
    rw [chunkStep, consumeStep_decrypt]
  | push chunk =>
    simp only [AppendsBlocks, chunkStep, pouchDownlinkPush, pushPasses_queue,
      List.append_cancel_left_eq, forall_eq', ChunkOp.push.injEq]
    simp only [List.mem_flatMap, ← queuedBy_blocks_iff]
    constructor
    · intro h head hmem b hb
      exact h b ⟨head, hmem, hb⟩
    · rintro h b ⟨head, hmem, hb⟩
      exact h head hmem b hb

/-- In every run, every buffer appended to decrypt.queue is exactly one block if and only if
buf_alloc succeeds each time a complete block has more bytes behind it. -/
theorem queued_buffers_are_blocks_iff (s : Downlink κ) (ops : List ChunkOp) :
    (∀ u op v, ops = u++op :: v → AppendsBlocks cfg env (final (chunkStep cfg env) s u) op) ↔
      ∀ u chunk v, ops = u++.push chunk :: v →
        ∀ h ∈ loopHeads cfg env chunk.length (final (chunkStep cfg env) s u) chunk,
          MeetsMore cfg env h.1 h.2 → env.bufAlloc h.1.allocs = true := by
  simp only [appendsBlocks_iff]
  constructor
  · intro h u chunk v hsplit
    exact h u _ v hsplit chunk rfl
  · rintro h u _ v hsplit chunk rfl
    exact h u chunk v hsplit

end

def oneBuffer : DownlinkEnv Unit Unit := { plainEnv with bufAlloc n := n == 0 }

/-- Two blocks in one chunk are queued as a single buffer of six bytes, whose size field
says three. -/
theorem two_blocks_in_one_buffer :
    ¬ AppendsBlocks plainConfig oneBuffer
      (final (chunkStep plainConfig oneBuffer) plainBoot [.start])
      (.push (plainHeader++[0, 1, 0xC0, 0, 1, 0xC1])) := by
  intro h
  have hblock := h [[0, 1, 0xC0, 0, 1, 0xC1]] (by decide) _ List.mem_cons_self
  revert hblock
  decide

end Pouch
