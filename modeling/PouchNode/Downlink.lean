import PouchNode.Buf

/-! The downlink receiver (downlink.c): bytes arrive in chunks of any length, are
collected in one buffer, and leave it block by block through the decrypt queue. The
generated header decoder, the crypto layer and the allocator are parameters. -/
namespace Pouch
open Octets
variable {κ ι : Type*}

structure DownlinkEnv (κ ι : Type*) where
  /- Decoded encryption info and number of bytes consumed; none is any zcbor error. -/
  cborDecodePouchHeader : Buf → Option (ι × Nat)
  cryptoDownlinkStart : ι → κ → Ret × κ
  /- The block may be NULL: the queue is not checked before it is read. -/
  cryptoDecryptBlock : Option Buf → κ → Option Buf × κ
  /- Whether the n-th buffer allocation of the run succeeds. -/
  bufAlloc : Nat → Bool

structure Downlink (κ : Type*) where
  pouchBuf : Option Buf
  pouchHeader : Bool
  decrypt : WorkQueue
  consume : WorkQueue
  crypto : κ
  /- Allocations made so far: the position in the allocator's answers. -/
  allocs : Nat

def Downlink.boot (crypto : κ) : Downlink κ :=
  ⟨none, false, ⟨[], false⟩, ⟨[], false⟩, crypto, 0⟩

section
variable (cfg : Config) (env : DownlinkEnv κ ι)

def Downlink.alloc (s : Downlink κ) : Downlink κ :=
  { s with
    pouchBuf := if env.bufAlloc s.allocs then some [] else none
    allocs := s.allocs + 1 }

def blockDownlinkPush (s : Downlink κ) (buf : Buf) : Downlink κ :=
  { s with decrypt := s.decrypt.submit buf }

def decryptBlocks (s : Downlink κ) : Downlink κ :=
  let (block, queue) := bufQueueGet s.decrypt.queue
  let (decrypted, crypto) := env.cryptoDecryptBlock block s.crypto
  match decrypted with
  | none => { s with decrypt := ⟨queue, false⟩, crypto }
  | some buf =>
    { s with decrypt := ⟨queue, !queue.isEmpty⟩, consume := s.consume.submit buf, crypto }

def consumeBlocks (s : Downlink κ) : Downlink κ × Option Buf :=
  match bufQueueGet s.consume.queue with
  | (none, queue) => ({ s with consume := ⟨queue, false⟩ }, none)
  | (some buf, queue) => ({ s with consume := ⟨queue, !queue.isEmpty⟩ }, some buf)

def pouchDownlinkStart (s : Downlink κ) : Downlink κ :=
  { s with pouchHeader := false }.alloc env

def pouchDownlinkParseHeader (crypto : κ) (v : Bufview) : (Ret × Nat) × κ :=
  let raw := ((pouchBufviewRead cfg v 0).1.getD []).take (pouchBufviewAvailable cfg v)
  match env.cborDecodePouchHeader raw with
  | none => ((.err .eio, 0), crypto)
  | some (info, headerLen) =>
    let (ret, crypto) := env.cryptoDownlinkStart info crypto
    ((ret, headerLen), crypto)

inductive PushExit where
  | noBuf | noSpace | badHeader | badBlockSize
  deriving DecidableEq, Repr

structure Pass (κ : Type*) where
  taken : Buf
  rest : Buf
  state : Downlink κ
  exit : Option PushExit

def pushBlock (s : Downlink κ) (buf : Buf) : Downlink κ × Option PushExit :=
  let v := pouchBufviewInit buf
  if 2 < pouchBufviewAvailable cfg v then
    let (blockSize, v) := pouchBufviewReadBe16 v
    if cfg.maxBlockSizeFieldValue < blockSize then
      ({ s with pouchBuf := some buf }, some .badBlockSize)
    else if blockSize ≤ pouchBufviewAvailable cfg v then
      let s := s.alloc env
      match s.pouchBuf with
      | none => (blockDownlinkPush s buf, none)
      | some fresh =>
        if blockSize < pouchBufviewAvailable cfg v then
          let remainingLen := cfg.sizeSub (pouchBufviewAvailable cfg v) blockSize
          let remaining := (((pouchBufviewRead cfg v 0).1.getD []).drop blockSize).take remainingLen
          (blockDownlinkPush { s with pouchBuf := some (bufWrite fresh remaining) }
            (bufTrimEnd buf remainingLen), none)
        else (blockDownlinkPush s buf, none)
    else ({ s with pouchBuf := some buf }, none)
  else ({ s with pouchBuf := some buf }, none)

def pushPass (s : Downlink κ) (input : Buf) : Pass κ :=
  match s.pouchBuf with
  | none => ⟨[], input, s, some .noBuf⟩
  | some buf =>
    if cfg.maxCiphertextBlockSize ≤ bufSizeGet buf then ⟨[], input, s, some .noSpace⟩
    else
      let bufWritten := min input.length (cfg.maxCiphertextBlockSize - bufSizeGet buf)
      let taken := input.take bufWritten
      let rest := input.drop bufWritten
      let buf := bufWrite buf taken
      if s.pouchHeader then
        let (s, exit) := pushBlock cfg env s buf
        ⟨taken, rest, s, exit⟩
      else
        match pouchDownlinkParseHeader cfg env s.crypto (pouchBufviewInit buf) with
        | ((.err _, _), crypto) =>
          ⟨taken, rest, { s with pouchBuf := some buf, crypto }, some .badHeader⟩
        | ((.ok, headerLen), crypto) =>
          let (s, exit) := pushBlock cfg env { s with pouchHeader := true, crypto }
            (bufTrimStart buf headerLen)
          ⟨taken, rest, s, exit⟩

/- The passes of one call, in order. Every pass that does not return takes a byte, so
   as many passes as there are input bytes are enough (length_pushPasses). -/
def pushPasses : Nat → Downlink κ → Buf → List (Pass κ)
  | 0, _, _ => []
  | _, _, [] => []
  | fuel+1, s, input =>
    let p := pushPass cfg env s input
    match p.exit with
    | some _ => [p]
    | none => p :: pushPasses fuel p.state p.rest

def Downlink.after (s : Downlink κ) (ps : List (Pass κ)) : Downlink κ :=
  (ps.getLast?.map Pass.state).getD s

def pouchDownlinkPush (s : Downlink κ) (input : Buf) : Downlink κ :=
  s.after (pushPasses cfg env input.length s input)

def downlinkPasses (s : Downlink κ) : List Buf → List (Pass κ)
  | [] => []
  | chunk :: chunks =>
    pushPasses cfg env chunk.length s chunk++
      downlinkPasses (pouchDownlinkPush cfg env s chunk) chunks

def pouchDownlinkPushAll (s : Downlink κ) (chunks : List Buf) : Downlink κ :=
  chunks.foldl (pouchDownlinkPush cfg env) s

end
end Pouch
