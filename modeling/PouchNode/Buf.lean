import PouchNode.Config

/-! Buffers, buffer views and buffer queues (buf.c). A buffer is the list of the bytes
it holds, so its byte count is the length; a view is a buffer with a read offset. -/
namespace Pouch
open Octets

abbrev Buf := List UInt8
abbrev BufQueue := List Buf

def bufWrite (buf data : Buf) : Buf := buf++data
def bufSizeGet (buf : Buf) : Nat := buf.length
def bufTrimStart (buf : Buf) (bytes : Nat) : Buf := buf.drop (min bytes buf.length)
def bufTrimEnd (buf : Buf) (bytes : Nat) : Buf := buf.take (buf.length - min bytes buf.length)

def bufQueueSubmit (queue : BufQueue) (buf : Buf) : BufQueue := queue++[buf]
def bufQueueGet : BufQueue → Option Buf × BufQueue
  | [] => (none, [])
  | buf :: queue => (some buf, queue)

structure WorkQueue where
  queue : BufQueue
  pending : Bool
  deriving DecidableEq, Repr

def WorkQueue.submit (w : WorkQueue) (buf : Buf) : WorkQueue :=
  ⟨bufQueueSubmit w.queue buf, true⟩

structure Bufview where
  buf : Option Buf
  offset : Nat
  deriving DecidableEq, Repr

def pouchBufviewInit (buf : Buf) : Bufview := ⟨some buf, 0⟩

def Bufview.rest (v : Bufview) : Buf := (v.buf.getD []).drop v.offset

section
variable (cfg : Config)

def pouchBufviewAvailable (v : Bufview) : Nat :=
  match v.buf with
  | none => 0
  | some buf => cfg.sizeSub buf.length v.offset

def pouchBufviewMemcpy (v : Bufview) (bytes : Nat) : Buf × Bufview :=
  let n := min bytes (pouchBufviewAvailable cfg v)
  (v.rest.take n, { v with offset := v.offset + n })

/- A pointer is modelled by what lies behind it; none is NULL. -/
def pouchBufviewRead (v : Bufview) (bytes : Nat) : Option Buf × Bufview :=
  if pouchBufviewAvailable cfg v < bytes then (none, v)
  else (some v.rest, { v with offset := v.offset + bytes })

def pouchBufviewReadBe16 (v : Bufview) : Nat × Bufview :=
  (getBe16 v.rest, { v with offset := v.offset + 2 })

def pouchBufviewReadByte (v : Bufview) : UInt8 × Bufview :=
  (v.rest.headD 0, { v with offset := v.offset + 1 })

def pouchBufviewIsReady (v : Bufview) : Bool :=
  v.buf.isSome && decide (0 < pouchBufviewAvailable cfg v)

def pouchBufviewFree (_v : Bufview) : Bufview := ⟨none, 0⟩

theorem available_some {buf : Buf} {offset : Nat} (ho : offset ≤ buf.length)
    (hb : buf.length < 2^cfg.sizeBits) :
    pouchBufviewAvailable cfg ⟨some buf, offset⟩ = buf.length - offset :=
  cfg.sizeSub_eq ho hb

theorem available_init {buf : Buf} (hb : buf.length < 2^cfg.sizeBits) :
    pouchBufviewAvailable cfg (pouchBufviewInit buf) = buf.length :=
  available_some cfg (Nat.zero_le _) hb

end

theorem bufTrimStart_eq (buf : Buf) (bytes : Nat) : bufTrimStart buf bytes = buf.drop bytes := by
  unfold bufTrimStart
  rcases Nat.le_total bytes buf.length with h | h
  · rw [Nat.min_eq_left h]
  · rw [Nat.min_eq_right h, List.drop_eq_nil_of_le h, List.drop_length]

theorem bufTrimEnd_eq (buf : Buf) (bytes : Nat) :
    bufTrimEnd buf bytes = buf.take (buf.length - bytes) := by
  unfold bufTrimEnd
  congr 1
  omega

end Pouch
