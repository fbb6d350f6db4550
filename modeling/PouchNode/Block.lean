import PouchNode.Buf

/-! Plaintext blocks (block.c): two bytes of size, one byte of stream id and flags, then
the payload. The size is only known, and only written, when the block is finished. -/
namespace Pouch
open Octets

def blockIdEntry : UInt8 := 0x00
def firstDataMask : UInt8 := 0x40
def lastDataMask : UInt8 := 0x80
def blockIdMask : UInt8 := 0x1f

structure BlockHdr where
  blockSize : Nat
  streamId : UInt8
  isStream : Bool
  isFirst : Bool
  isLast : Bool
  deriving DecidableEq, Repr

def blockDecodeHdr (v : Bufview) : BlockHdr × Bufview :=
  let (blockSize, v) := pouchBufviewReadBe16 v
  let (id, v) := pouchBufviewReadByte v
  (⟨blockSize, id &&& blockIdMask, decide (id &&& blockIdMask ≠ blockIdEntry),
    decide (id &&& firstDataMask ≠ 0), decide (id &&& lastDataMask ≠ 0)⟩, v)

def updateBlockHeader (block : Buf) (size : Nat) (flags : UInt8) : Buf :=
  putBe16 size++(block.drop 2).modifyHead (· ||| flags)

def writeBlockHeader (block : Buf) (size : Nat) (id flags : UInt8) : Buf :=
  block++putBe16 size++[id ||| flags]

def blockSizeGet (block : Buf) : Nat := bufSizeGet block

def blockAlloc (alloc : Bool) : Option Buf :=
  if alloc then some (writeBlockHeader [] 0 blockIdEntry (firstDataMask ||| lastDataMask))
  else none

def blockAllocStream (alloc : Bool) (streamId : UInt8) (first : Bool) : Option Buf :=
  if alloc then some (writeBlockHeader [] 0 streamId (if first then firstDataMask else 0))
  else none

section
variable (cfg : Config)

def blockSpaceGet (block : Buf) : Nat := cfg.sizeSub cfg.maxPlaintextBlockSize (blockSizeGet block)

/- The id is passed along but not used: it has been in the header all the time. -/
def finish (block : Buf) (_id flags : UInt8) : Buf :=
  updateBlockHeader block (cfg.sizeSub (blockSizeGet block) 2) flags

def blockFinish (block : Buf) : Buf :=
  finish cfg block blockIdEntry (firstDataMask ||| lastDataMask)

def blockFinishStream (block : Buf) (streamId : UInt8) (last : Bool) : Buf :=
  finish cfg block streamId (if last then lastDataMask else 0)

end

def openBlock (id : UInt8) (payload : Buf) : Buf := 0 :: 0 :: id :: payload
def closedBlock (id : UInt8) (payload : Buf) : Buf := putBe16 (1 + payload.length)++id :: payload
def blockPayload (block : Buf) : Buf := block.drop 3
def blockHdr (block : Buf) : BlockHdr := (blockDecodeHdr (pouchBufviewInit block)).1

section
variable (id : UInt8) (payload : Buf)

@[simp] theorem blockPayload_openBlock : blockPayload (openBlock id payload) = payload := rfl
@[simp] theorem blockPayload_closedBlock : blockPayload (closedBlock id payload) = payload := rfl

@[simp] theorem length_openBlock : (openBlock id payload).length = 3 + payload.length := by
  simp [openBlock]
  omega

@[simp] theorem length_closedBlock : (closedBlock id payload).length = 3 + payload.length := by
  simp [closedBlock]
  omega

@[simp] theorem openBlock_append (data : Buf) :
    openBlock id payload++data = openBlock id (payload++data) := rfl

theorem blockHdr_closedBlock : blockHdr (closedBlock id payload) =
    ⟨(1 + payload.length) % 65536, id &&& blockIdMask, decide (id &&& blockIdMask ≠ blockIdEntry),
      decide (id &&& firstDataMask ≠ 0), decide (id &&& lastDataMask ≠ 0)⟩ := by
  have hsize := getBe16_putBe16_append (1 + payload.length) (id :: payload)
  have hid : (List.drop 2 (putBe16 (1 + payload.length)++id :: payload)).headD 0 = id := rfl
  simp only [blockHdr, blockDecodeHdr, pouchBufviewReadBe16, pouchBufviewReadByte, pouchBufviewInit,
    Bufview.rest, Option.getD_some, List.drop_zero, Nat.zero_add, closedBlock, hsize, hid]

theorem blockAlloc_eq (alloc : Bool) :
    blockAlloc alloc = if alloc then some (openBlock 0xC0 []) else none := rfl

variable {cfg : Config} {payload}

theorem blockSpaceGet_openBlock (hp : payload.length ≤ cfg.maxBlockPayloadSize) :
    blockSpaceGet cfg (openBlock id payload) = cfg.maxBlockPayloadSize - payload.length := by
  have hm := cfg.maxCiphertextBlockSize_lt
  simp only [Config.maxCiphertextBlockSize, Config.maxPlaintextBlockSize] at hm
  simp only [blockSpaceGet, blockSizeGet, bufSizeGet, length_openBlock, Config.maxPlaintextBlockSize]
  rw [cfg.sizeSub_eq (by omega) (by omega)]
  omega

theorem blockSpaceGet_new (cfg : Config) (id : UInt8) :
    blockSpaceGet cfg (openBlock id []) = cfg.maxBlockPayloadSize := by
  have hp : ([] : Buf).length ≤ cfg.maxBlockPayloadSize := Nat.zero_le _
  simpa using blockSpaceGet_openBlock id hp

theorem finish_openBlock (hp : payload.length ≤ cfg.maxBlockPayloadSize) (streamId flags : UInt8) :
    finish cfg (openBlock id payload) streamId flags = closedBlock (id ||| flags) payload := by
  have hm := cfg.maxCiphertextBlockSize_lt
  simp only [Config.maxCiphertextBlockSize, Config.maxPlaintextBlockSize] at hm
  simp only [finish, blockSizeGet, bufSizeGet, length_openBlock]
  rw [cfg.sizeSub_eq (by omega) (by omega)]
  have hsize : 3 + payload.length - 2 = 1 + payload.length := by omega
  rw [hsize]
  rfl

theorem blockFinish_openBlock (hp : payload.length ≤ cfg.maxBlockPayloadSize) :
    blockFinish cfg (openBlock 0xC0 payload) = closedBlock 0xC0 payload :=
  finish_openBlock 0xC0 hp _ _

end
end Pouch
