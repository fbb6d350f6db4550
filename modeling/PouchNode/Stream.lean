import PouchNode.Entry
import Mathlib.Data.List.AList

/-! Uplink streams (stream.c). A stream owns one open block; a write fills it, and gives it
away only when the next block has been allocated. As in the entry module, what is handed
to uplink_enqueue is returned as a list. -/
namespace Pouch
open Octets

def pouchStreamsMax : Nat := 126

structure PouchStream where
  id : UInt8
  buf : Buf
  bytes : Nat
  sessionId : UInt32
  deriving DecidableEq

/- The two static counters and the streams in memory. A stream is named by the number of
   ids drawn before its own, which stands for its address. The counters are wide enough:
   only the low bits of stream_id are used, and they do not depend on its width. -/
structure Streams where
  streamId : Nat
  openStreams : Nat
  live : AList (fun _ : Nat => PouchStream)
  draws : Nat

def Streams.boot : Streams := ⟨1, 0, ∅, 0⟩

def streamHeader (contentType : UInt16) (path : CString) : Buf :=
  putBe16 contentType.toNat++[UInt8.ofNat (strlen path)]++path.chars

def writeStreamHeader (block : Buf) (contentType : UInt16) (path : CString) : Buf :=
  let block := bufWrite block (putBe16 contentType.toNat)
  let block := bufWrite block [UInt8.ofNat (strlen path)]
  bufWrite block path.chars

/- The loop runs at most twice, as 0 is not followed by 0. -/
def newStreamId (streamId : Nat) : UInt8 × Nat :=
  let id := UInt8.ofNat streamId &&& blockIdMask
  if id = 0 then (UInt8.ofNat (streamId + 1) &&& blockIdMask, streamId + 2)
  else (id, streamId + 1)

def pouchUplinkStreamOpen (sessionId : UInt32) (path : CString) (contentType : UInt16)
    (malloc alloc : Bool) (s : Streams) : Option Nat × Streams :=
  if pouchStreamsMax ≤ s.openStreams then (none, s)
  else if !malloc then (none, s)
  else
    let (id, streamId) := newStreamId s.streamId
    match blockAllocStream alloc id true with
    | none => (none, { s with streamId, draws := s.draws + 1 })
    | some buf =>
      let stream : PouchStream := ⟨id, writeStreamHeader buf contentType path, 0, sessionId⟩
      (some s.draws,
        ⟨streamId, s.openStreams + 1, s.live.insert s.draws stream, s.draws + 1⟩)

def pouchStreamIsValid (sessionId : UInt32) (stream : PouchStream) : Bool :=
  decide (stream.sessionId = sessionId)

section
variable (cfg : Config)

/- The loop of pouch_stream_write, from the open block, the data still to be written and
   the number of blocks allocated so far. Every pass but the last writes something, so
   there are no more passes than bytes. -/
def streamWriteLoop (alloc : Nat → Bool) (id : UInt8) :
    Nat → Nat → Buf → Buf → Buf × Buf × List Buf
  | 0, _, buf, data => (buf, data, [])
  | passes + 1, allocs, buf, data =>
    if data.length = 0 then (buf, data, [])
    else
      let space := blockSpaceGet cfg buf
      if space = 0 then
        match blockAllocStream (alloc allocs) id false with
        | none => (buf, data, [])
        | some new =>
          let full := blockFinishStream cfg buf id false
          let n := min (blockSpaceGet cfg new) data.length
          let (last, rest, enqueued) := streamWriteLoop alloc id passes (allocs + 1)
            (bufWrite new (data.take n)) (data.drop n)
          (last, rest, full :: enqueued)
      else
        let n := min space data.length
        streamWriteLoop alloc id passes allocs (bufWrite buf (data.take n)) (data.drop n)

def pouchStreamWrite (sessionId : UInt32) (alloc : Nat → Bool) (stream : PouchStream) (data : Buf) :
    Nat × PouchStream × List Buf :=
  if !pouchStreamIsValid sessionId stream then (0, stream, [])
  else
    let (buf, rest, enqueued) :=
      streamWriteLoop cfg alloc stream.id data.length 0 stream.buf data
    let written := data.length - rest.length
    (written, { stream with buf, bytes := (stream.bytes + written) % 2^cfg.sizeBits }, enqueued)

def pouchStreamClose (sessionId : UInt32) (stream : PouchStream) : List Buf :=
  if pouchStreamIsValid sessionId stream && decide (0 < stream.bytes) then
    [blockFinishStream cfg stream.buf stream.id true]
  else []

end

structure Writers where
  entry : Option Buf
  streams : Streams
  sessionId : UInt32

def Writers.boot : Writers := ⟨none, .boot, 0⟩

/- A handle is none when it is NULL; one that is not open is treated the same way. -/
inductive WritersOp where
  | streamOpen (path : CString) (contentType : UInt16) (malloc alloc : Bool)
  | streamWrite (handle : Option Nat) (data : Buf) (alloc : Nat → Bool)
  | streamClose (handle : Option Nat)
  | entry (op : EntryOp)
  /- The step of uplink.id when pouch_uplink_finish ends a session. -/
  | nextSession

inductive WritersResult where
  | opened (handle : Option Nat)
  | written (n : Nat)
  | ret (ret : Ret)
  | done
  deriving DecidableEq

structure WritersOut where
  result : WritersResult
  enqueued : List Buf
  deriving DecidableEq

def Writers.stream (s : Writers) (handle : Option Nat) : Option PouchStream :=
  handle.bind fun h => s.streams.live.lookup h

def writersStep (cfg : Config) (s : Writers) : WritersOp → Writers × WritersOut
  | .streamOpen path contentType malloc alloc =>
    let (handle, streams) :=
      pouchUplinkStreamOpen s.sessionId path contentType malloc alloc s.streams
    ({ s with streams }, ⟨.opened handle, []⟩)
  | .streamWrite handle data alloc =>
    match handle, s.stream handle with
    | some h, some stream =>
      let (written, stream, enqueued) := pouchStreamWrite cfg s.sessionId alloc stream data
      ({ s with streams := { s.streams with live := s.streams.live.insert h stream } },
        ⟨.written written, enqueued⟩)
    | _, _ => (s, ⟨.written 0, []⟩)
  | .streamClose handle =>
    match handle, s.stream handle with
    | some h, some stream =>
      ({ s with streams :=
        { s.streams with
          openStreams := s.streams.openStreams - 1
          live := s.streams.live.erase h } },
        ⟨.ret .ok, pouchStreamClose cfg s.sessionId stream⟩)
    | _, _ => (s, ⟨.ret (.err .einval), []⟩)
  | .entry op =>
    let (entry, out) := entryStep cfg s.entry op
    ({ s with entry }, ⟨.ret out.ret, out.enqueued⟩)
  | .nextSession => ({ s with sessionId := s.sessionId + 1 }, ⟨.done, []⟩)

section
variable (cfg : Config) (s : Writers)

theorem streamWrite_cases (handle : Option Nat) (data : Buf) (alloc : Nat → Bool) :
    writersStep cfg s (.streamWrite handle data alloc) = (s, ⟨.written 0, []⟩) ∨
    ∃ i stream, handle = some i ∧ s.streams.live.lookup i = some stream ∧
      writersStep cfg s (.streamWrite handle data alloc) =
        ({ s with streams :=
          { s.streams with
            live := s.streams.live.insert i
              (pouchStreamWrite cfg s.sessionId alloc stream data).2.1 } },
          ⟨.written (pouchStreamWrite cfg s.sessionId alloc stream data).1,
            (pouchStreamWrite cfg s.sessionId alloc stream data).2.2⟩) := by
  cases handle with
  | none => exact Or.inl rfl
  | some i =>
    cases hi : s.streams.live.lookup i with
    | none => exact Or.inl (by simp [writersStep, Writers.stream, hi])
    | some stream => exact Or.inr ⟨i, stream, rfl, hi, by simp [writersStep, Writers.stream, hi]⟩

/-- A close finds no open stream and does nothing, or frees it. -/
theorem streamClose_cases (handle : Option Nat) :
    writersStep cfg s (.streamClose handle) = (s, ⟨.ret (.err .einval), []⟩) ∨
    ∃ i stream, handle = some i ∧ s.streams.live.lookup i = some stream ∧
      writersStep cfg s (.streamClose handle) =
        ({ s with streams :=
          { s.streams with
            openStreams := s.streams.openStreams - 1
            live := s.streams.live.erase i } },
          ⟨.ret .ok, pouchStreamClose cfg s.sessionId stream⟩) := by
  cases handle with
  | none => exact Or.inl rfl
  | some i =>
    cases hi : s.streams.live.lookup i with
    | none => exact Or.inl (by simp [writersStep, Writers.stream, hi])
    | some stream => exact Or.inr ⟨i, stream, rfl, hi, by simp [writersStep, Writers.stream, hi]⟩

end

theorem writersStep_entry {cfg : Config} (s : Writers) {op : WritersOp} (hop : ∀ o, op ≠ .entry o) :
    (writersStep cfg s op).1.entry = s.entry := by
  cases op with
  | streamOpen path contentType malloc alloc => rfl
  | streamWrite handle data alloc =>
    simp only [writersStep]
    split <;> rfl
  | streamClose handle =>
    simp only [writersStep]
    split <;> rfl
  | entry op => exact absurd rfl (hop op)
  | nextSession => rfl

end Pouch
