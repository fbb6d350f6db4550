import PouchNode.DownlinkFifo
import PouchNode.DownlinkReassembly
import PouchNode.Provisioning

/-! The downlink characteristic (downlink_characteristic.c): the packets of a pouch go to the
receiver while the two handlers take the blocks on. What the receiver does with a packet does
not depend on how far they are. -/
namespace Pouch
open Machine Fragments Octets
variable {κ ι : Type*}

def pouchDownlinkFinish (s : Downlink κ) : Downlink κ := s

def WorkQueue.submitAll (w : WorkQueue) (blocks : List Buf) : WorkQueue :=
  blocks.foldl WorkQueue.submit w

@[simp] theorem WorkQueue.submitAll_nil (w : WorkQueue) : w.submitAll [] = w := rfl
@[simp] theorem WorkQueue.submitAll_singleton (w : WorkQueue) (b : Buf) :
    w.submitAll [b] = w.submit b := rfl

theorem WorkQueue.submitAll_append (w : WorkQueue) (bs cs : List Buf) :
    w.submitAll (bs++cs) = (w.submitAll bs).submitAll cs := List.foldl_append

theorem WorkQueue.submitAll_queue (w : WorkQueue) (blocks : List Buf) :
    (w.submitAll blocks).queue = w.queue++blocks := by
  induction blocks generalizing w with
  | nil => simp
  | cons b bs ih =>
    have hsplit : w.submitAll (b :: bs) = (w.submit b).submitAll bs := rfl
    simp [hsplit, ih, WorkQueue.submit, bufQueueSubmit]

theorem WorkQueue.Armed.submitAll {w : WorkQueue} (h : w.Armed) (blocks : List Buf) :
    (w.submitAll blocks).Armed := by
  induction blocks generalizing w with
  | nil => exact h
  | cons b bs ih => exact ih (w.armed_submit b)

def Downlink.withQueues (s : Downlink κ) (decrypt consume : WorkQueue) : Downlink κ :=
  { s with decrypt, consume }

theorem Downlink.withQueues_withQueues (s : Downlink κ) (d c d' c' : WorkQueue) :
    (s.withQueues d c).withQueues d' c' = s.withQueues d' c' := rfl

section
variable (cfg : Config) (env : DownlinkEnv κ ι)

def Frames {α : Type*} (f : Downlink κ → Downlink κ × α) (s : Downlink κ) : Prop :=
  ∃ blocks, ∀ decrypt consume, f (s.withQueues decrypt consume) =
    ((f s).1.withQueues (decrypt.submitAll blocks) consume, (f s).2)

theorem pushBlock_frames (s : Downlink κ) (buf : Buf) : Frames (pushBlock cfg env · buf) s := by
  by_cases h2 : 2 < pouchBufviewAvailable cfg (pouchBufviewInit buf)
  · by_cases ho : cfg.maxBlockSizeFieldValue < (pouchBufviewReadBe16 (pouchBufviewInit buf)).1
    · exact ⟨[], fun d c => by simp [pushBlock, h2, ho, Downlink.withQueues]⟩
    · by_cases hfit : (pouchBufviewReadBe16 (pouchBufviewInit buf)).1 ≤
          pouchBufviewAvailable cfg (pouchBufviewReadBe16 (pouchBufviewInit buf)).2
      · cases ha : env.bufAlloc s.allocs with
        | false =>
          exact ⟨[buf], fun d c => by
            simp [pushBlock, h2, ho, hfit, Downlink.alloc, Downlink.withQueues, ha,
              blockDownlinkPush]⟩
        | true =>
          by_cases hmore : (pouchBufviewReadBe16 (pouchBufviewInit buf)).1 <
              pouchBufviewAvailable cfg (pouchBufviewReadBe16 (pouchBufviewInit buf)).2
          · exact ⟨[_], fun d c => by
              simp [pushBlock, h2, ho, hfit, Downlink.alloc, Downlink.withQueues, ha, hmore,
                blockDownlinkPush]; rfl⟩
          · exact ⟨[buf], fun d c => by
              simp [pushBlock, h2, ho, hfit, Downlink.alloc, Downlink.withQueues, ha, hmore,
                blockDownlinkPush]⟩
      · exact ⟨[], fun d c => by simp [pushBlock, h2, ho, hfit, Downlink.withQueues]⟩
  · exact ⟨[], fun d c => by simp [pushBlock, h2, Downlink.withQueues]⟩

theorem pushPass_frames (s : Downlink κ) (input : Buf) :
    ∃ blocks, ∀ decrypt consume, pushPass cfg env (s.withQueues decrypt consume) input =
      { pushPass cfg env s input with
        state := (pushPass cfg env s input).state.withQueues (decrypt.submitAll blocks) consume } := by
  obtain ⟨pouchBuf, pouchHeader, d0, c0, k, allocs⟩ := s
  cases pouchBuf with
  | none => exact ⟨[], fun d c => by simp [pushPass, Downlink.withQueues]⟩
  | some buf =>
    by_cases hfull : cfg.maxCiphertextBlockSize ≤ bufSizeGet buf
    · exact ⟨[], fun d c => by simp [pushPass, Downlink.withQueues, hfull]⟩
    · cases pouchHeader with
      | true =>
        obtain ⟨blocks, hframe⟩ := pushBlock_frames cfg env ⟨some buf, true, d0, c0, k, allocs⟩
          (bufWrite buf
            (input.take (min input.length (cfg.maxCiphertextBlockSize - bufSizeGet buf))))
        refine ⟨blocks, fun d c => ?_⟩
        have hstep := hframe d c
        simp only [Downlink.withQueues] at hstep
        simp [pushPass, Downlink.withQueues, hfull, hstep]
      | false =>
        cases hparse : pouchDownlinkParseHeader cfg env k (pouchBufviewInit (bufWrite buf
          (input.take (min input.length (cfg.maxCiphertextBlockSize - bufSizeGet buf))))) with
        | mk parsed crypto =>
        obtain ⟨ret, headerLen⟩ := parsed
        cases ret with
        | err e =>
          exact ⟨[], fun d c => by simp [pushPass, Downlink.withQueues, hfull, hparse]⟩
        | ok =>
          obtain ⟨blocks, hframe⟩ := pushBlock_frames cfg env
            ⟨some buf, true, d0, c0, crypto, allocs⟩ (bufTrimStart (bufWrite buf
              (input.take (min input.length (cfg.maxCiphertextBlockSize - bufSizeGet buf))))
              headerLen)
          refine ⟨blocks, fun d c => ?_⟩
          have hstep := hframe d c
          simp only [Downlink.withQueues] at hstep
          simp [pushPass, Downlink.withQueues, hfull, hparse, hstep]

theorem pushPasses_frames (fuel : Nat) (s : Downlink κ) (input : Buf) :
    ∃ blocks, ∀ decrypt consume,
      (s.withQueues decrypt consume).after
          (pushPasses cfg env fuel (s.withQueues decrypt consume) input) =
        (s.after (pushPasses cfg env fuel s input)).withQueues (decrypt.submitAll blocks)
          consume := by
  induction fuel generalizing s input with
  | zero => exact ⟨[], fun d c => rfl⟩
  | succ fuel ih =>
    cases input with
    | nil => exact ⟨[], fun d c => rfl⟩
    | cons b input =>
      obtain ⟨blocks, hpass⟩ := pushPass_frames cfg env s (b :: input)
      cases hexit : (pushPass cfg env s (b :: input)).exit with
      | some e =>
        refine ⟨blocks, fun d c => ?_⟩
        simp [pushPasses, hpass d c, hexit, Downlink.after]
      | none =>
        obtain ⟨more, hrest⟩ := ih (pushPass cfg env s (b :: input)).state
          (pushPass cfg env s (b :: input)).rest
        refine ⟨blocks++more, fun d c => ?_⟩
        simp only [pushPasses, hpass d c, hexit, Downlink.after_cons, hrest,
          WorkQueue.submitAll_append]

theorem pouchDownlinkPush_frames (s : Downlink κ) (chunk : Buf) :
    ∃ blocks, ∀ decrypt consume, pouchDownlinkPush cfg env (s.withQueues decrypt consume) chunk =
      (pouchDownlinkPush cfg env s chunk).withQueues (decrypt.submitAll blocks) consume :=
  pushPasses_frames cfg env chunk.length s chunk

def downlinkWrite (packet : Buf) (s : Downlink κ) : Option Nat × Downlink κ :=
  match packetizerDecode packet with
  | none => (none, s)
  | some (payload, isFirst, isLast) =>
    let s := if isFirst then pouchDownlinkStart env s else s
    let s := pouchDownlinkPush cfg env s payload
    (some packet.length, if isLast then pouchDownlinkFinish s else s)

theorem downlinkWrite_frames (packet : Buf) (s : Downlink κ) :
    ∃ blocks, ∀ decrypt consume, downlinkWrite cfg env packet (s.withQueues decrypt consume) =
      ((downlinkWrite cfg env packet s).1,
        (downlinkWrite cfg env packet s).2.withQueues (decrypt.submitAll blocks) consume) := by
  cases hd : packetizerDecode packet with
  | none => exact ⟨[], fun d c => by simp [downlinkWrite, hd]⟩
  | some decoded =>
    obtain ⟨payload, isFirst, isLast⟩ := decoded
    cases isFirst with
    | true =>
      obtain ⟨blocks, hpush⟩ := pouchDownlinkPush_frames cfg env (pouchDownlinkStart env s) payload
      refine ⟨blocks, fun d c => ?_⟩
      have hstart : pouchDownlinkStart env (s.withQueues d c) =
          (pouchDownlinkStart env s).withQueues d c := rfl
      simp [downlinkWrite, hd, hstart, hpush, pouchDownlinkFinish]
    | false =>
      obtain ⟨blocks, hpush⟩ := pouchDownlinkPush_frames cfg env s payload
      refine ⟨blocks, fun d c => ?_⟩
      simp [downlinkWrite, hd, hpush, pouchDownlinkFinish]

inductive DownlinkChrcOp where
  | write (packet : Buf)
  | decrypt
  | consume

def downlinkChrcStep (s : Downlink κ) : DownlinkChrcOp → Downlink κ × Option Buf
  | .write packet => ((downlinkWrite cfg env packet s).2, none)
  | .decrypt => pipelineStep env s .decrypt
  | .consume => pipelineStep env s .consume

def DownlinkChrcOp.packet : DownlinkChrcOp → Option Buf
  | .write packet => some packet
  | .decrypt => none
  | .consume => none

def writtenAlone (s : Downlink κ) (packets : List Buf) : Downlink κ :=
  packets.foldl (fun s packet => (downlinkWrite cfg env packet s).2) s

theorem writtenAlone_append (s : Downlink κ) (ps qs : List Buf) :
    writtenAlone cfg env s (ps++qs) = writtenAlone cfg env (writtenAlone cfg env s ps) qs :=
  List.foldl_append

end

section
variable {decode : Buf → Option (EncryptionInfo × Nat)} {alloc : Nat → Bool}

theorem FifoInv.pushes {tr : List (PipelineEvent Unit)} {s : Downlink Unit} (h : FifoInv tr s)
    (blocks : List Buf) :
    ∃ tr', FifoInv tr' (s.withQueues (s.decrypt.submitAll blocks) s.consume) ∧
      handedBlocks tr' = handedBlocks tr ∧ pushedBlocks tr' = pushedBlocks tr++blocks := by
  induction blocks generalizing tr s with
  | nil => exact ⟨tr, h, rfl, (List.append_nil _).symm⟩
  | cons b bs ih =>
    have hstep : FifoInv
        (tr++[event (pipelineStep (cryptoNoneReceiver (fun _ => none) fun _ => true)) s (.push b)])
        (s.withQueues (s.decrypt.submit b) s.consume) := h.step (.push b)
    obtain ⟨tr', hfifo, hhanded, hpushed⟩ := ih hstep
    refine ⟨tr', hfifo, ?_, ?_⟩
    · rw [hhanded]
      simp [handedBlocks, event, pipelineStep]
    · rw [hpushed]
      simp [pushedBlocks, event, PipelineOp.pushed]

/-- A run of a handler only moves blocks. -/
theorem handler_frame (s : Downlink Unit) {op : PipelineOp} (hop : op = .decrypt ∨ op = .consume) :
    (pipelineStep (cryptoNoneReceiver decode alloc) s op).1 =
      s.withQueues (pipelineStep (cryptoNoneReceiver decode alloc) s op).1.decrypt
        (pipelineStep (cryptoNoneReceiver decode alloc) s op).1.consume := by
  rcases hop with rfl | rfl
  · cases hp : s.decrypt.pending with
    | false => simp [pipelineStep, hp, Downlink.withQueues]
    | true =>
      cases hq : s.decrypt.queue with
      | nil => simp [pipelineStep, hp, decryptBlocks, bufQueueGet, hq, cryptoNoneReceiver,
          Downlink.withQueues]
      | cons b queue => simp [pipelineStep, hp, decryptBlocks_plain hq, Downlink.withQueues]
  · cases hp : s.consume.pending with
    | false => simp [pipelineStep, hp, Downlink.withQueues]
    | true =>
      cases hq : s.consume.queue with
      | nil => simp [pipelineStep, hp, consumeBlocks, bufQueueGet, hq, Downlink.withQueues]
      | cons b queue =>
        simp [pipelineStep, hp, consumeBlocks, bufQueueGet, hq, Downlink.withQueues]

end

section
variable (cfg : Config) (decode : Buf → Option (EncryptionInfo × Nat)) (alloc : Nat → Bool)

abbrev chrcReceiverFinal (ops : List DownlinkChrcOp) : Downlink Unit :=
  final (downlinkChrcStep cfg (cryptoNoneReceiver decode alloc)) (.boot ()) ops

def chrcHanded (ops : List DownlinkChrcOp) : List Buf :=
  (outputs (downlinkChrcStep cfg (cryptoNoneReceiver decode alloc)) (.boot ()) ops).filterMap id

def receiverAlone (ops : List DownlinkChrcOp) : Downlink Unit :=
  writtenAlone cfg (cryptoNoneReceiver decode alloc) (.boot ())
    (ops.filterMap DownlinkChrcOp.packet)

/- But for its queues the receiver is where it would be without the handlers, and these have
   taken on, in order, the blocks that it would have queued. -/
structure RunsAlone (ops : List DownlinkChrcOp) : Prop where
  same : chrcReceiverFinal cfg decode alloc ops = (receiverAlone cfg decode alloc ops).withQueues
    (chrcReceiverFinal cfg decode alloc ops).decrypt (chrcReceiverFinal cfg decode alloc ops).consume
  fifo : ∃ tr, FifoInv tr (chrcReceiverFinal cfg decode alloc ops) ∧
    handedBlocks tr = chrcHanded cfg decode alloc ops ∧
    pushedBlocks tr = (receiverAlone cfg decode alloc ops).decrypt.queue

theorem chrcHanded_snoc (ops : List DownlinkChrcOp) (op : DownlinkChrcOp) :
    chrcHanded cfg decode alloc (ops++[op]) = chrcHanded cfg decode alloc ops++
      (downlinkChrcStep cfg (cryptoNoneReceiver decode alloc)
        (chrcReceiverFinal cfg decode alloc ops) op).2.toList := by
  rw [chrcHanded, outputs_append, List.filterMap_append]
  cases h : (downlinkChrcStep cfg (cryptoNoneReceiver decode alloc)
    (chrcReceiverFinal cfg decode alloc ops) op).2 with
  | none => simp [h, chrcHanded]
  | some b => simp [h, chrcHanded]

theorem RunsAlone.handler {ops : List DownlinkChrcOp} (h : RunsAlone cfg decode alloc ops)
    {op : DownlinkChrcOp} {pop : PipelineOp} (hpop : pop = .decrypt ∨ pop = .consume)
    (hpacket : op.packet = none) (hstep : downlinkChrcStep cfg (cryptoNoneReceiver decode alloc)
      (chrcReceiverFinal cfg decode alloc ops) op =
      pipelineStep (cryptoNoneReceiver decode alloc) (chrcReceiverFinal cfg decode alloc ops) pop) :
    RunsAlone cfg decode alloc (ops++[op]) := by
  have halone : receiverAlone cfg decode alloc (ops++[op]) = receiverAlone cfg decode alloc ops := by
    simp [receiverAlone, List.filterMap_append, hpacket]
  have hfinal : chrcReceiverFinal cfg decode alloc (ops++[op]) =
      (pipelineStep (cryptoNoneReceiver decode alloc)
        (chrcReceiverFinal cfg decode alloc ops) pop).1 := by
    rw [chrcReceiverFinal, final_snoc, ← chrcReceiverFinal, hstep]
  obtain ⟨tr, hfifo, hhanded, hpushed⟩ := h.fifo
  have hmoved : FifoInv
      (tr++[event (pipelineStep (cryptoNoneReceiver decode alloc))
        (chrcReceiverFinal cfg decode alloc ops) pop]) _ := hfifo.step pop
  refine ⟨?_, _, hfinal ▸ hmoved, ?_, ?_⟩
  · rw [hfinal, halone]
    exact (handler_frame _ hpop).trans ((congrArg (Downlink.withQueues · _ _) h.same).trans
      (Downlink.withQueues_withQueues ..))
  · rw [chrcHanded_snoc, hstep, ← hhanded]
    cases hout : (pipelineStep (cryptoNoneReceiver decode alloc)
      (chrcReceiverFinal cfg decode alloc ops) pop).2 with
    | none => simp [handedBlocks, event, hout]
    | some b => simp [handedBlocks, event, hout]
  · rw [halone, ← hpushed]
    rcases hpop with rfl | rfl <;> simp [pushedBlocks, event, PipelineOp.pushed]

theorem RunsAlone.write {ops : List DownlinkChrcOp} (h : RunsAlone cfg decode alloc ops)
    (packet : Buf) : RunsAlone cfg decode alloc (ops++[.write packet]) := by
  have halone : receiverAlone cfg decode alloc (ops++[.write packet]) =
      (downlinkWrite cfg (cryptoNoneReceiver decode alloc) packet
        (receiverAlone cfg decode alloc ops)).2 := by
    simp [receiverAlone, List.filterMap_append, DownlinkChrcOp.packet, writtenAlone]
  obtain ⟨blocks, hframe⟩ := downlinkWrite_frames cfg (cryptoNoneReceiver decode alloc) packet
    (receiverAlone cfg decode alloc ops)
  have hfinal : chrcReceiverFinal cfg decode alloc (ops++[.write packet]) =
      (downlinkWrite cfg (cryptoNoneReceiver decode alloc) packet
        (receiverAlone cfg decode alloc ops)).2.withQueues
        ((chrcReceiverFinal cfg decode alloc ops).decrypt.submitAll blocks)
        (chrcReceiverFinal cfg decode alloc ops).consume := by
    rw [chrcReceiverFinal, final_snoc, ← chrcReceiverFinal, downlinkChrcStep]
    conv_lhs => rw [h.same]
    rw [hframe]
  have hqueue : (receiverAlone cfg decode alloc (ops++[.write packet])).decrypt.queue =
      (receiverAlone cfg decode alloc ops).decrypt.queue++blocks := by
    have hself := congrArg (fun r => r.2.decrypt) (hframe
      (receiverAlone cfg decode alloc ops).decrypt (receiverAlone cfg decode alloc ops).consume)
    rw [halone, ← WorkQueue.submitAll_queue]
    exact congrArg WorkQueue.queue hself
  obtain ⟨tr, hfifo, hhanded, hpushed⟩ := h.fifo
  obtain ⟨tr', hfifo', hhanded', hpushed'⟩ := hfifo.pushes blocks
  refine ⟨?_, tr', ?_, ?_, ?_⟩
  · rw [hfinal, halone]
    rfl
  · rw [hfinal]
    exact ⟨hfifo'.order, hfifo'.decrypt, hfifo'.consume⟩
  · rw [hhanded', hhanded, chrcHanded_snoc]
    simp [downlinkChrcStep]
  · rw [hpushed', hpushed, hqueue]

/-- The handlers do not get in the way of the receiver, whenever they run. -/
theorem runsAlone (ops : List DownlinkChrcOp) : RunsAlone cfg decode alloc ops := by
  induction ops using List.reverseRecOn with
  | nil => exact ⟨rfl, [], fifoInv_boot (), rfl, rfl⟩
  | append_singleton ops op ih =>
    cases op with
    | write packet => exact ih.write cfg decode alloc packet
    | decrypt => exact ih.handler cfg decode alloc (Or.inl rfl) rfl rfl
    | consume => exact ih.handler cfg decode alloc (Or.inr rfl) rfl rfl

end
end Pouch
