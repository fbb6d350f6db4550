import PouchNode.BufMem
import PouchNode.DownlinkFifo
import PouchNode.DownlinkSession
import PouchNode.DownlinkStream

/-! The receiver on the heap (downlink.c, session.c): the same code as in Downlink.lean, with
the pointers it keeps in pouch_buf and the two queues and every buf_alloc and buf_free it and
the crypto layer make. Forgetting the addresses gives back the receiver on contents. -/
namespace Pouch

def receiverEnv (cfg : Config) (r : SaeadReceiver) : DownlinkEnv ReceiverCrypto EncryptionInfo :=
  match cfg.encryption with
  | .saead => saeadReceiverEnv cfg r
  | .none =>
    let plain := cryptoNoneReceiver r.decode r.alloc
    { cborDecodePouchHeader := plain.cborDecodePouchHeader
      cryptoDownlinkStart := fun info k => ((plain.cryptoDownlinkStart info ()).1, k)
      cryptoDecryptBlock := fun block k => ((plain.cryptoDecryptBlock block ()).1, k)
      bufAlloc := plain.bufAlloc }

namespace Mem
open Heap Machine
variable {κ ι : Type*}

def sessionDecryptBlock (cfg : Config) (o : BlockOutcome) (psa : Psa) (session : Session)
    (block : BufRef) (h : Heap) : (Option BufRef × Session) × Heap :=
  match bufAlloc o.alloc h with
  | (none, h) => ((none, session), h)
  | (some decrypted, h) =>
    let nonce := nonceGenerate session .server
    let (ciphertextLen, ciphertext) := pouchBufviewReadBe16 (pouchBufviewInit block.val)
    if ciphertextLen ≤ authTagLen ∨ ciphertextLen ≠ pouchBufviewAvailable cfg ciphertext then
      ((none, session), bufFree decrypted h)
    else
      let payloadLen := ciphertextLen - authTagLen
      match psaAead o psa session nonce (ciphertext.rest.take ciphertextLen) with
      | none => ((none, session), bufFree decrypted h)
      | some plaintext =>
        if plaintext.length ≠ payloadLen then ((none, session), bufFree decrypted h)
        else
          ((some (decrypted.set (Octets.putBe16 payloadLen++plaintext)),
            { session with
              flags := { session.flags with valid := true }
              pouch :=
                { session.pouch with
                  ad := (ciphertext.rest.drop payloadLen).take authTagLen
                  blockIndex := session.pouch.blockIndex + 1 } }), h)

def saeadDownlinkBlockDecrypt (cfg : Config) (o : BlockOutcome) (s : Saead) (block : BufRef)
    (h : Heap) : (Option BufRef × Saead) × Heap :=
  match sessionDecryptBlock cfg o s.psa s.downlink block h with
  | ((none, downlink), h) => ((none, { s with downlink }), bufFree block h)
  | ((some decrypted, downlink), h) =>
    ((some decrypted, { s with
      downlink := { downlink with flags := { downlink.flags with valid := true, hasPouch := true } }
      server := ⟨downlink.id.serverSeqnum.getD s.server.seqnum, downlink.pouch.id⟩ }),
      bufFree block h)

def cryptoDecryptBlock (cfg : Config) (r : SaeadReceiver) (block : BufRef) (k : ReceiverCrypto)
    (h : Heap) : (Option BufRef × ReceiverCrypto) × Heap :=
  match cfg.encryption with
  | .none => ((some block, k), h)
  | .saead =>
    let ((decrypted, saead), h) :=
      saeadDownlinkBlockDecrypt cfg (r.blocks k.blocks) k.saead block h
    ((decrypted, { k with saead, blocks := k.blocks + 1 }), h)

structure Downlink where
  heap : Heap
  pouchBuf : Option BufRef
  pouchHeader : Bool
  decrypt : WorkQueue
  consume : WorkQueue
  crypto : ReceiverCrypto
  allocs : Nat

def Downlink.boot : Downlink := ⟨.empty, none, false, ⟨[], false⟩, ⟨[], false⟩, .boot, 0⟩

section
variable (cfg : Config) (r : SaeadReceiver)

def Downlink.alloc (s : Downlink) : Downlink :=
  let (pouchBuf, heap) := bufAlloc ((receiverEnv cfg r).bufAlloc s.allocs) s.heap
  { s with pouchBuf, heap, allocs := s.allocs + 1 }

def blockDownlinkPush (s : Downlink) (buf : BufRef) : Downlink :=
  { s with decrypt := s.decrypt.submit buf }

def decryptBlocks (s : Downlink) : Downlink :=
  match s.decrypt.queue with
  -- a pending handler always finds a block
  | [] => { s with decrypt := ⟨[], false⟩ }
  | block :: queue =>
    match cryptoDecryptBlock cfg r block s.crypto s.heap with
    | ((none, crypto), heap) => { s with decrypt := ⟨queue, false⟩, crypto, heap }
    | ((some decrypted, crypto), heap) =>
      { s with
        decrypt := ⟨queue, !queue.isEmpty⟩
        consume := s.consume.submit decrypted
        crypto, heap }

def consumeBlocks (s : Downlink) : Downlink × Option Buf :=
  match s.consume.queue with
  | [] => ({ s with consume := ⟨[], false⟩ }, none)
  | buf :: queue =>
    ({ s with consume := ⟨queue, !queue.isEmpty⟩, heap := bufFree buf s.heap }, some buf.val)

def pouchDownlinkStart (s : Downlink) : Downlink := { s with pouchHeader := false }.alloc cfg r

def pushBlock (s : Downlink) (buf : BufRef) : Downlink × Option PushExit :=
  let v := pouchBufviewInit buf.val
  if 2 < pouchBufviewAvailable cfg v then
    let (blockSize, v) := pouchBufviewReadBe16 v
    if cfg.maxBlockSizeFieldValue < blockSize then
      ({ s with pouchBuf := some buf }, some .badBlockSize)
    else if blockSize ≤ pouchBufviewAvailable cfg v then
      let s := s.alloc cfg r
      match s.pouchBuf with
      | none => (blockDownlinkPush s buf, none)
      | some fresh =>
        if blockSize < pouchBufviewAvailable cfg v then
          let remainingLen := cfg.sizeSub (pouchBufviewAvailable cfg v) blockSize
          let remaining := (((pouchBufviewRead cfg v 0).1.getD []).drop blockSize).take remainingLen
          (blockDownlinkPush { s with pouchBuf := some (fresh.set (bufWrite fresh.val remaining)) }
            (buf.set (bufTrimEnd buf.val remainingLen)), none)
        else (blockDownlinkPush s buf, none)
    else ({ s with pouchBuf := some buf }, none)
  else ({ s with pouchBuf := some buf }, none)

def pushPass (s : Downlink) (input : Buf) : (Downlink × Option PushExit) × Buf :=
  match s.pouchBuf with
  | none => ((s, some .noBuf), input)
  | some buf =>
    if cfg.maxCiphertextBlockSize ≤ bufSizeGet buf.val then ((s, some .noSpace), input)
    else
      let bufWritten := min input.length (cfg.maxCiphertextBlockSize - bufSizeGet buf.val)
      let rest := input.drop bufWritten
      let buf := buf.set (bufWrite buf.val (input.take bufWritten))
      if s.pouchHeader then (pushBlock cfg r s buf, rest)
      else
        match pouchDownlinkParseHeader cfg (receiverEnv cfg r) s.crypto
          (pouchBufviewInit buf.val) with
        | ((.err _, _), crypto) =>
          (({ s with pouchBuf := some buf, crypto }, some .badHeader), rest)
        | ((.ok, headerLen), crypto) =>
          (pushBlock cfg r { s with pouchHeader := true, crypto }
            (buf.set (bufTrimStart buf.val headerLen)), rest)

def pushLoop : Nat → Downlink → Buf → Downlink
  | 0, s, _ => s
  | _, s, [] => s
  | fuel + 1, s, input =>
    match pushPass cfg r s input with
    | ((s, some _), _) => s
    | ((s, none), rest) => pushLoop fuel s rest

def pouchDownlinkPush (s : Downlink) (input : Buf) : Downlink := pushLoop cfg r input.length s input

def pouchDownlinkFinish (s : Downlink) : Downlink := s

inductive DownlinkOp where
  | start
  | push (chunk : Buf)
  | finish
  | decrypt
  | consume
  | session (f : ReceiverCrypto → ReceiverCrypto)

def downlinkStep (s : Downlink) : DownlinkOp → Downlink × Option Buf
  | .start => (pouchDownlinkStart cfg r s, none)
  | .push chunk => (pouchDownlinkPush cfg r s chunk, none)
  | .finish => (pouchDownlinkFinish s, none)
  | .decrypt => (if s.decrypt.pending then decryptBlocks cfg r s else s, none)
  | .consume => if s.consume.pending then consumeBlocks s else (s, none)
  | .session f => ({ s with crypto := f s.crypto }, none)

abbrev downlinkFinal : Downlink → List DownlinkOp → Downlink := final (downlinkStep cfg r)

end

def Downlink.erase (s : Downlink) : Pouch.Downlink ReceiverCrypto :=
  { pouchBuf := s.pouchBuf.map Ref.val
    pouchHeader := s.pouchHeader
    decrypt := s.decrypt.erase
    consume := s.consume.erase
    crypto := s.crypto
    allocs := s.allocs }

section
variable (cfg : Config) (o : BlockOutcome) (psa : Psa) (session : Session) (block : BufRef) (h : Heap)

/-- What becomes of the buffer for the plaintext: it is returned, or freed on every other
way out. -/
theorem sessionDecryptBlock_eq (halloc : o.alloc = true) :
    sessionDecryptBlock cfg o psa session block h =
      match Pouch.sessionDecryptBlock cfg o psa session block.val with
      | (none, after) => ((none, after), bufFree ⟨h.malloc.1, []⟩ h.malloc.2)
      | (some bytes, after) => ((some ⟨h.malloc.1, bytes⟩, after), h.malloc.2) := by
  simp only [sessionDecryptBlock, Pouch.sessionDecryptBlock, bufAlloc, halloc, if_true,
    Bool.not_true, Bool.false_eq_true, if_false]
  split
  · rfl
  · generalize psaAead o psa session _ _ = result
    cases result with
    | none => rfl
    | some plaintext =>
      dsimp only
      split <;> rfl

theorem sessionDecryptBlock_erase :
    ((sessionDecryptBlock cfg o psa session block h).1.1.map Ref.val,
      (sessionDecryptBlock cfg o psa session block h).1.2) =
      Pouch.sessionDecryptBlock cfg o psa session block.val := by
  cases halloc : o.alloc with
  | false => simp [sessionDecryptBlock, Pouch.sessionDecryptBlock, bufAlloc, halloc]
  | true =>
    rw [sessionDecryptBlock_eq cfg o psa session block h halloc]
    split
    · next he => exact he.symm
    · next he => exact he.symm

theorem turns_sessionDecryptBlock :
    Turns h 0 (sessionDecryptBlock cfg o psa session block h).2
      (held (sessionDecryptBlock cfg o psa session block h).1.1) := by
  cases halloc : o.alloc with
  | false =>
    simp only [sessionDecryptBlock, bufAlloc, halloc, Bool.false_eq_true, if_false]
    exact Turns.refl h 0
  | true =>
    have halloc' := turns_bufAlloc true h
    rw [sessionDecryptBlock_eq cfg o psa session block h halloc]
    split
    · exact halloc'.trans (turns_bufFree ⟨h.malloc.1, []⟩ h.malloc.2)
    · exact halloc'

end

section
variable (cfg : Config) (r : SaeadReceiver)

theorem saeadDownlinkBlockDecrypt_erase (o : BlockOutcome) (s : Saead) (block : BufRef) (h : Heap) :
    ((saeadDownlinkBlockDecrypt cfg o s block h).1.1.map Ref.val,
      (saeadDownlinkBlockDecrypt cfg o s block h).1.2) =
      Pouch.saeadDownlinkBlockDecrypt cfg o s block.val := by
  have he := sessionDecryptBlock_erase cfg o s.psa s.downlink block h
  rw [saeadDownlinkBlockDecrypt, Pouch.saeadDownlinkBlockDecrypt, ← he]
  cases hd : sessionDecryptBlock cfg o s.psa s.downlink block h with
  | mk d h' =>
  cases d with
  | mk decrypted downlink =>
    cases decrypted <;> rfl

theorem turns_saeadDownlinkBlockDecrypt (o : BlockOutcome) (s : Saead) (block : BufRef) (h : Heap) :
    Turns h {block.addr} (saeadDownlinkBlockDecrypt cfg o s block h).2
      (held (saeadDownlinkBlockDecrypt cfg o s block h).1.1) := by
  have ht := turns_sessionDecryptBlock cfg o s.psa s.downlink block h
  simp only [saeadDownlinkBlockDecrypt]
  cases hd : sessionDecryptBlock cfg o s.psa s.downlink block h with
  | mk d h' =>
  cases d with
  | mk decrypted downlink =>
    rw [hd] at ht
    -- the block is freed last, whatever has come of it
    have hboth := (ht.frame {block.addr}).trans
      (show Turns h' (held decrypted+{block.addr}) (bufFree block h') (held decrypted) by
        rw [add_comm]
        simpa using (turns_bufFree block h').frame (held decrypted))
    rw [zero_add] at hboth
    cases decrypted <;> exact hboth

/-- The crypto layer answers as it does on contents. -/
theorem cryptoDecryptBlock_erase (block : BufRef) (k : ReceiverCrypto) (h : Heap) :
    ((cryptoDecryptBlock cfg r block k h).1.1.map Ref.val, (cryptoDecryptBlock cfg r block k h).1.2) =
      (receiverEnv cfg r).cryptoDecryptBlock (some block.val) k := by
  unfold cryptoDecryptBlock receiverEnv
  cases cfg.encryption with
  | none => rfl
  | saead =>
    have he := saeadDownlinkBlockDecrypt_erase cfg (r.blocks k.blocks) k.saead block h
    simp only [saeadReceiverEnv, ← he]

theorem turns_cryptoDecryptBlock (block : BufRef) (k : ReceiverCrypto) (h : Heap) :
    Turns h {block.addr} (cryptoDecryptBlock cfg r block k h).2
      (held (cryptoDecryptBlock cfg r block k h).1.1) := by
  unfold cryptoDecryptBlock
  cases cfg.encryption with
  | none => exact Turns.refl h {block.addr}
  | saead => exact turns_saeadDownlinkBlockDecrypt cfg (r.blocks k.blocks) k.saead block h

theorem receiverEnv_null (k : ReceiverCrypto) :
    (receiverEnv cfg r).cryptoDecryptBlock none k = (none, k) := by
  unfold receiverEnv
  cases cfg.encryption <;> rfl

theorem alloc_erase (s : Downlink) : (s.alloc cfg r).erase = s.erase.alloc (receiverEnv cfg r) := by
  cases ha : (receiverEnv cfg r).bufAlloc s.allocs with
  | false => simp [Downlink.alloc, Pouch.Downlink.alloc, Downlink.erase, bufAlloc, ha]
  | true => simp [Downlink.alloc, Pouch.Downlink.alloc, Downlink.erase, bufAlloc, ha]

theorem blockDownlinkPush_erase (s : Downlink) (buf : BufRef) :
    (blockDownlinkPush s buf).erase = Pouch.blockDownlinkPush s.erase buf.val := by
  simp [blockDownlinkPush, Pouch.blockDownlinkPush, Downlink.erase]

theorem decryptBlocks_erase (s : Downlink) :
    (decryptBlocks cfg r s).erase = Pouch.decryptBlocks (receiverEnv cfg r) s.erase := by
  cases hq : s.decrypt.queue with
  | nil =>
    simp [decryptBlocks, Pouch.decryptBlocks, Downlink.erase, WorkQueue.erase, hq, bufQueueGet,
      receiverEnv_null]
  | cons block queue =>
    have he := cryptoDecryptBlock_erase cfg r block s.crypto s.heap
    cases hd : cryptoDecryptBlock cfg r block s.crypto s.heap with
    | mk d heap =>
    obtain ⟨decrypted, crypto⟩ := d
    rw [hd] at he
    cases decrypted with
    | none =>
      simp [decryptBlocks, Pouch.decryptBlocks, Downlink.erase, WorkQueue.erase, hq, hd, bufQueueGet,
        ← he]
    | some decrypted =>
      simp [decryptBlocks, Pouch.decryptBlocks, Downlink.erase, hq, hd, bufQueueGet, ← he,
        WorkQueue.erase, WorkQueue.submit, Pouch.WorkQueue.submit, bufQueueSubmit]

theorem consumeBlocks_erase (s : Downlink) :
    ((consumeBlocks s).1.erase, (consumeBlocks s).2) = Pouch.consumeBlocks s.erase := by
  cases hq : s.consume.queue with
  | nil => simp [consumeBlocks, Pouch.consumeBlocks, Downlink.erase, WorkQueue.erase, hq, bufQueueGet]
  | cons buf queue =>
    simp [consumeBlocks, Pouch.consumeBlocks, Downlink.erase, WorkQueue.erase, hq, bufQueueGet]

theorem pushBlock_erase (s : Downlink) (buf : BufRef) :
    ((pushBlock cfg r s buf).1.erase, (pushBlock cfg r s buf).2) =
      Pouch.pushBlock cfg (receiverEnv cfg r) s.erase buf.val := by
  simp only [pushBlock, Pouch.pushBlock, ← alloc_erase]
  have hkept : (s.alloc cfg r).erase.pouchBuf = (s.alloc cfg r).pouchBuf.map Ref.val := rfl
  rw [hkept]
  split
  · split
    · rfl
    · split
      · cases hbuf : (s.alloc cfg r).pouchBuf with
        | none => simp [blockDownlinkPush_erase]
        | some fresh =>
          simp only [Option.map_some]
          split
          · simp only [blockDownlinkPush_erase]
            rfl
          · simp only [blockDownlinkPush_erase]
      · rfl
  · rfl

theorem pushPass_erase (s : Downlink) (input : Buf) :
    (pushPass cfg r s input).1.1.erase = (Pouch.pushPass cfg (receiverEnv cfg r) s.erase input).state ∧
    (pushPass cfg r s input).1.2 = (Pouch.pushPass cfg (receiverEnv cfg r) s.erase input).exit ∧
    (pushPass cfg r s input).2 = (Pouch.pushPass cfg (receiverEnv cfg r) s.erase input).rest := by
  have hkept : s.erase.pouchBuf = s.pouchBuf.map Ref.val := rfl
  cases hbuf : s.pouchBuf with
  | none => simp [pushPass, Pouch.pushPass, hkept, hbuf]
  | some buf =>
    simp only [pushPass, Pouch.pushPass, hkept, hbuf, Option.map_some]
    split
    · exact ⟨rfl, rfl, rfl⟩
    · have hheader : s.erase.pouchHeader = s.pouchHeader := rfl
      rw [hheader]
      split
      · have hb := pushBlock_erase cfg r s (buf.set (bufWrite buf.val (input.take
          (min input.length (cfg.maxCiphertextBlockSize - bufSizeGet buf.val)))))
        exact ⟨congrArg Prod.fst hb, congrArg Prod.snd hb, rfl⟩
      · have hcrypto : s.erase.crypto = s.crypto := rfl
        simp only [BufRef.set_val, hcrypto]
        cases hp : pouchDownlinkParseHeader cfg (receiverEnv cfg r) s.crypto _ with
        | mk ret crypto =>
        obtain ⟨ret, headerLen⟩ := ret
        cases ret with
        | err e => exact ⟨rfl, rfl, rfl⟩
        | ok =>
          have hb := pushBlock_erase cfg r { s with pouchHeader := true, crypto }
            (buf.set (bufTrimStart (bufWrite buf.val (input.take
              (min input.length (cfg.maxCiphertextBlockSize - bufSizeGet buf.val)))) headerLen))
          exact ⟨congrArg Prod.fst hb, congrArg Prod.snd hb, rfl⟩

theorem pushLoop_erase (fuel : Nat) (s : Downlink) (input : Buf) :
    (pushLoop cfg r fuel s input).erase =
      s.erase.after (pushPasses cfg (receiverEnv cfg r) fuel s.erase input) := by
  induction fuel generalizing s input with
  | zero => rfl
  | succ fuel ih =>
    cases input with
    | nil => rfl
    | cons b input =>
      obtain ⟨hstate, hexit, hrest⟩ := pushPass_erase cfg r s (b :: input)
      simp only [pushLoop, pushPasses, ← hexit]
      cases hp : pushPass cfg r s (b :: input) with
      | mk p rest =>
      obtain ⟨t, exit⟩ := p
      rw [hp] at hstate hrest
      cases exit with
      | some e => simpa [Pouch.Downlink.after] using hstate
      | none =>
        simp only [Downlink.after_cons, ← hstate, ← hrest]
        exact ih t rest

end

section
variable (cfg : Config) (r : SaeadReceiver)

def contentStep (s : Pouch.Downlink ReceiverCrypto) : DownlinkOp →
    Pouch.Downlink ReceiverCrypto × Option Buf
  | .start => (Pouch.pouchDownlinkStart (receiverEnv cfg r) s, none)
  | .push chunk => (Pouch.pouchDownlinkPush cfg (receiverEnv cfg r) s chunk, none)
  | .finish => (s, none)
  | .decrypt => pipelineStep (receiverEnv cfg r) s .decrypt
  | .consume => pipelineStep (receiverEnv cfg r) s .consume
  | .session f => ({ s with crypto := f s.crypto }, none)

theorem downlinkStep_erase (s : Downlink) (op : DownlinkOp) :
    ((downlinkStep cfg r s op).1.erase, (downlinkStep cfg r s op).2) = contentStep cfg r s.erase op := by
  cases op with
  | start =>
    simp only [downlinkStep, contentStep, pouchDownlinkStart, Pouch.pouchDownlinkStart, alloc_erase]
    rfl
  | push chunk =>
    simp only [downlinkStep, contentStep, pouchDownlinkPush, Pouch.pouchDownlinkPush, pushLoop_erase]
  | finish => rfl
  | decrypt =>
    have hpending : s.erase.decrypt.pending = s.decrypt.pending := rfl
    simp only [downlinkStep, contentStep, pipelineStep, hpending]
    split
    · rw [decryptBlocks_erase]
    · rfl
  | consume =>
    have hpending : s.erase.consume.pending = s.consume.pending := rfl
    simp only [downlinkStep, contentStep, pipelineStep, hpending]
    split
    · exact consumeBlocks_erase s
    · rfl
  | session f => rfl

/-- The receiver on the heap does what the receiver on contents does. -/
theorem downlinkFinal_erase (s : Downlink) (ops : List DownlinkOp) :
    (downlinkFinal cfg r s ops).erase = final (contentStep cfg r) s.erase ops := by
  induction ops generalizing s with
  | nil => rfl
  | cons op ops ih =>
    rw [downlinkFinal, final_cons, final_cons, ← downlinkStep_erase]
    exact ih _

end

end Mem
end Pouch
