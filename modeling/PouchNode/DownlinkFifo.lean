import PouchNode.DownlinkQueue

/-! The receiver without encryption (crypto_none.c). A block is its own decryption, so no
run of decrypt_blocks fails, and the two queues are one queue in two parts. -/
namespace Pouch
open Machine

def cryptoNoneReceiver (decode : Buf → Option (EncryptionInfo × Nat)) (alloc : Nat → Bool) :
    DownlinkEnv Unit EncryptionInfo where
  cborDecodePouchHeader := decode
  cryptoDownlinkStart info k :=
    match info with
    | .plaintext _ => (.ok, k)
    | .saead _ _ => (.err .enotsup, k)
  cryptoDecryptBlock block k := (block, k)
  bufAlloc := alloc

def PipelineOp.pushed : PipelineOp → Option Buf
  | .push block => some block
  | .decrypt => none
  | .consume => none

abbrev PipelineEvent (κ : Type*) := Event (Downlink κ) PipelineOp (Option Buf)

def pushedBlocks {κ : Type*} (tr : List (PipelineEvent κ)) : List Buf :=
  tr.filterMap fun e => e.input.pushed
def handedBlocks {κ : Type*} (tr : List (PipelineEvent κ)) : List Buf :=
  tr.filterMap fun e => e.output

/- Nothing lost, nothing twice, nothing out of order; a run of decrypt_blocks finds a block,
   and nothing is left when no handler is pending. -/
structure FifoState {κ : Type*} (tr : List (PipelineEvent κ)) (s : Downlink κ) : Prop where
  order : handedBlocks tr++s.consume.queue++s.decrypt.queue = pushedBlocks tr
  finds : s.decrypt.pending = true → s.decrypt.queue ≠ []
  done : s.decrypt.pending = false → s.consume.pending = false →
    handedBlocks tr = pushedBlocks tr

def WorkQueue.Armed (w : WorkQueue) : Prop := w.pending = !w.queue.isEmpty

structure FifoInv {κ : Type*} (tr : List (PipelineEvent κ)) (s : Downlink κ) : Prop where
  order : handedBlocks tr++s.consume.queue++s.decrypt.queue = pushedBlocks tr
  decrypt : s.decrypt.Armed
  consume : s.consume.Armed

section
variable {κ : Type*} {tr : List (PipelineEvent κ)} {s : Downlink κ}

theorem WorkQueue.armed_submit (w : WorkQueue) (b : Buf) : (w.submit b).Armed := by
  simp [WorkQueue.Armed, WorkQueue.submit, bufQueueSubmit]

theorem WorkQueue.Armed.queue_eq_nil {w : WorkQueue} (h : w.Armed) (hp : w.pending = false) :
    w.queue = [] := by
  unfold WorkQueue.Armed at h
  simpa [hp] using h

theorem WorkQueue.Armed.queue_eq_cons {w : WorkQueue} (h : w.Armed) (hp : w.pending = true) :
    ∃ b queue, w.queue = b :: queue := by
  unfold WorkQueue.Armed at h
  cases hq : w.queue with
  | nil => simp [hp, hq] at h
  | cons b queue => exact ⟨b, queue, rfl⟩

theorem FifoInv.state (h : FifoInv tr s) : FifoState tr s := by
  refine ⟨h.order, ?_, ?_⟩
  · intro hp
    obtain ⟨b, queue, hq⟩ := h.decrypt.queue_eq_cons hp
    simp [hq]
  · intro hd hc
    have horder := h.order
    rw [h.decrypt.queue_eq_nil hd, h.consume.queue_eq_nil hc] at horder
    simpa using horder

theorem fifoInv_boot (k : κ) : FifoInv [] (Downlink.boot k) := ⟨rfl, rfl, rfl⟩

end

section
variable {decode : Buf → Option (EncryptionInfo × Nat)} {alloc : Nat → Bool}
variable {tr : List (PipelineEvent Unit)} {s : Downlink Unit}

theorem decryptBlocks_plain {b : Buf} {queue : BufQueue} (hq : s.decrypt.queue = b :: queue) :
    decryptBlocks (cryptoNoneReceiver decode alloc) s =
      { s with decrypt := ⟨queue, !queue.isEmpty⟩, consume := s.consume.submit b } := by
  simp [decryptBlocks, bufQueueGet, hq, cryptoNoneReceiver]

/-- Every step moves a block on by one place, or does nothing. -/
theorem FifoInv.step (h : FifoInv tr s) (op : PipelineOp) :
    FifoInv (tr++[event (pipelineStep (cryptoNoneReceiver decode alloc)) s op])
      (pipelineStep (cryptoNoneReceiver decode alloc) s op).1 := by
  have horder := h.order
  cases op with
  | push block =>
    refine ⟨?_, s.decrypt.armed_submit block, h.consume⟩
    simp only [handedBlocks, pushedBlocks, List.filterMap_append] at horder ⊢
    rw [← horder]
    simp [event, pipelineStep, blockDownlinkPush, PipelineOp.pushed, WorkQueue.submit,
      bufQueueSubmit]
  | decrypt =>
    cases hp : s.decrypt.pending with
    | false =>
      have hsame : pipelineStep (cryptoNoneReceiver decode alloc) s .decrypt = (s, none) := by
        simp [pipelineStep, hp]
      rw [event, hsame]
      refine ⟨?_, h.decrypt, h.consume⟩
      simpa [handedBlocks, pushedBlocks, PipelineOp.pushed] using horder
    | true =>
      obtain ⟨b, queue, hq⟩ := h.decrypt.queue_eq_cons hp
      have hstep : pipelineStep (cryptoNoneReceiver decode alloc) s .decrypt =
          ({ s with decrypt := ⟨queue, !queue.isEmpty⟩, consume := s.consume.submit b }, none) := by
        simp [pipelineStep, hp, decryptBlocks_plain hq]
      rw [event, hstep]
      refine ⟨?_, rfl, s.consume.armed_submit b⟩
      rw [hq] at horder
      simpa [handedBlocks, pushedBlocks, PipelineOp.pushed, WorkQueue.submit, bufQueueSubmit]
        using horder
  | consume =>
    cases hp : s.consume.pending with
    | false =>
      have hsame : pipelineStep (cryptoNoneReceiver decode alloc) s .consume = (s, none) := by
        simp [pipelineStep, hp]
      rw [event, hsame]
      refine ⟨?_, h.decrypt, h.consume⟩
      simpa [handedBlocks, pushedBlocks, PipelineOp.pushed] using horder
    | true =>
      obtain ⟨b, queue, hq⟩ := h.consume.queue_eq_cons hp
      have hstep : pipelineStep (cryptoNoneReceiver decode alloc) s .consume =
          ({ s with consume := ⟨queue, !queue.isEmpty⟩ }, some b) := by
        simp [pipelineStep, hp, consumeBlocks, bufQueueGet, hq]
      rw [event, hstep]
      refine ⟨?_, h.decrypt, rfl⟩
      rw [hq] at horder
      simpa [handedBlocks, pushedBlocks, PipelineOp.pushed] using horder

end

/-- In every state of every run, the blocks handed over, then those to be consumed, then
those to be decrypted, are the blocks that were pushed. -/
theorem plaintext_pipeline_fifo (decode : Buf → Option (EncryptionInfo × Nat)) (alloc : Nat → Bool)
    (ops : List PipelineOp) :
    FifoState (trace (pipelineStep (cryptoNoneReceiver decode alloc)) (.boot ()) ops)
      (pipelineFinal (cryptoNoneReceiver decode alloc) (.boot ()) ops) :=
  (trace_invariant (pipelineStep (cryptoNoneReceiver decode alloc)) (A := fun _ => True)
    (P := FifoInv) _ (fifoInv_boot ()) (fun _ _ op _ h => h.step op) ops
    (fun _ _ => trivial)).state

end Pouch
