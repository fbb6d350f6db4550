import PouchNode.Entry
import Mathlib.Data.List.TakeWhile

/-! The consumer of decrypted blocks (entry.c): a block is parsed through one view, and its
entries, or its part of a stream, go to the downlink handlers. Besides the handler calls the
model records every access to the buffer and every move of the view. -/
namespace Pouch
open Octets

/- A pointer into the buffer is modelled by the bytes from it to the buffer's end, NULL by
   none. -/
inductive PushEvent where
  | read (offset bytes : Nat)
  | advance (offset : Nat)
  | memcpy (src : Option Buf) (bytes : Nat)
  | start (streamId : UInt32) (path : CString) (contentType : UInt16)
  | data (streamId : UInt32) (data : Option Buf) (bytes : Nat) (isLast : Bool)
  deriving DecidableEq

structure Consumer where
  view : Bufview
  events : List PushEvent
  deriving DecidableEq

abbrev PushM := StateM Consumer

theorem nul_not_mem_takeWhile (array : Buf) : 0 ∉ array.takeWhile (· ≠ 0) := by
  intro h
  have hne := List.mem_takeWhile_imp h
  simp at hne

def cString (array : Buf) : CString := ⟨array.takeWhile (· ≠ 0), nul_not_mem_takeWhile array⟩

theorem cString_append {text : Buf} (h : 0 ∉ text) (rest : Buf) :
    (cString (text++rest)).chars = text++(cString rest).chars := by
  have hall : ∀ c ∈ text, decide (c ≠ 0) = true := by
    intro c hc
    simp only [decide_eq_true_eq]
    rintro rfl
    exact h hc
  exact List.takeWhile_append_of_pos hall

theorem cString_eq_self {text : Buf} (h : 0 ∉ text) : (cString text).chars = text := by
  have happ := cString_append h []
  rwa [List.append_nil, show (cString []).chars = [] from rfl, List.append_nil] at happ

/- path_null_term, of which nothing is known after a copy from NULL. -/
def pathNullTerm (path : Option Buf) (pathLen : Nat) : CString :=
  cString ((path.getD []).take pathLen)

def emit (event : PushEvent) : PushM Unit := modify fun c => { c with events := c.events++[event] }
def setView (v : Bufview) : PushM Unit := modify fun c => { c with view := v }

def readBe16 : PushM Nat := do
  let v := (← get).view
  emit (.read v.offset 2)
  let (value, next) := pouchBufviewReadBe16 v
  setView next
  return value

def readByte : PushM UInt8 := do
  let v := (← get).view
  emit (.read v.offset 1)
  let (value, next) := pouchBufviewReadByte v
  setView next
  return value

def decodeHdr : PushM BlockHdr := do
  let v := (← get).view
  emit (.read v.offset 2)
  emit (.read (v.offset + 2) 1)
  let (hdr, next) := blockDecodeHdr v
  setView next
  return hdr

section
variable (cfg : Config)

def available : PushM Nat := do return pouchBufviewAvailable cfg (← get).view

def readBytes (bytes : Nat) : PushM (Option Buf) := do
  let (pointer, next) := pouchBufviewRead cfg (← get).view bytes
  emit (.advance next.offset)
  setView next
  return pointer

def entryPush : PushM Unit := do
  let dataLen ← readBe16
  let contentType ← readBe16
  let pathLen ← readByte
  let path ← readBytes cfg pathLen.toNat
  let data ← readBytes cfg dataLen
  emit (.memcpy path pathLen.toNat)
  emit (.start 0 (pathNullTerm path pathLen.toNat) (UInt16.ofNat contentType))
  emit (.data 0 data dataLen true)

def pouchDownlinkEntriesPush : Nat → PushM Bool
  | 0 => return false
  | passes + 1 => do
    if (← available cfg) = 0 then return true
    entryPush cfg
    pouchDownlinkEntriesPush passes

def streamStartPush (streamId : UInt8) : PushM Unit := do
  let contentType ← readBe16
  let pathLen ← readByte
  let path ← readBytes cfg pathLen.toNat
  emit (.memcpy path pathLen.toNat)
  emit (.start streamId.toUInt32 (pathNullTerm path pathLen.toNat) (UInt16.ofNat contentType))

/- The number of bytes left is stored in a uint16_t. -/
def streamDataPush (streamId : UInt8) (isLast : Bool) : PushM Unit := do
  let dataLen := (← available cfg) % 65536
  let data ← readBytes cfg dataLen
  emit (.data streamId.toUInt32 data dataLen isLast)

def pouchDownlinkStreamPush (streamId : UInt8) (isFirst isLast : Bool) : PushM Unit := do
  if isFirst then streamStartPush cfg streamId
  streamDataPush cfg streamId isLast

/- The size field is decoded and not used. -/
def pouchDownlinkBlockPush (passes : Nat) : PushM Bool := do
  let hdr ← decodeHdr
  if hdr.isStream then
    pouchDownlinkStreamPush cfg hdr.streamId hdr.isFirst hdr.isLast
    return true
  else pouchDownlinkEntriesPush cfg passes

def blockPush (passes : Nat) (buf : Buf) : Bool × List PushEvent :=
  let (returned, c) := pouchDownlinkBlockPush cfg passes ⟨pouchBufviewInit buf, []⟩
  (returned, c.events)

end

example : blockPush (.ofLog 9 .none) 2 [0, 8, 0xC0, 0, 1, 0, 42, 1, 0x61, 7] =
    (true, [.read 0 2, .read 2 1, .read 3 2, .read 5 2, .read 7 1, .advance 9, .advance 10,
      .memcpy (some [0x61, 7]) 1, .start 0 pathA 42, .data 0 (some [7]) 1 true]) := by decide

end Pouch
