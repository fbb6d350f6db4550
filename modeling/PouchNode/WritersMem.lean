import PouchNode.BufMem
import PouchNode.Stream

/-! Entries and streams on the heap (block.c, entry.c, stream.c): the same code as on
contents, with the blocks that the entry module and the streams hold and every buf_alloc and
buf_free they make. What they hand to uplink_enqueue is again returned as a list. -/
namespace Pouch.Mem
open Heap

def blockAlloc (alloc : Bool) (h : Heap) : Option BufRef × Heap :=
  match bufAlloc alloc h with
  | (none, h) => (none, h)
  | (some block, h) =>
    (some (block.set (writeBlockHeader block.val 0 blockIdEntry (firstDataMask ||| lastDataMask))), h)

def blockAllocStream (alloc : Bool) (streamId : UInt8) (first : Bool) (h : Heap) :
    Option BufRef × Heap :=
  match bufAlloc alloc h with
  | (none, h) => (none, h)
  | (some block, h) =>
    (some (block.set
      (writeBlockHeader block.val 0 streamId (if first then firstDataMask else 0))), h)

section
variable (cfg : Config)

def pouchUplinkEntryWrite (path : Option CString) (contentType : UInt16) (data : Option Buf)
    (lock : Ret) (alloc : Bool) (block : Option BufRef) (h : Heap) :
    (Ret × Option BufRef × List BufRef) × Heap :=
  match path, data with
  | some path, some data =>
    if data.length = 0 then ((.err .einval, block, []), h)
    else
      match lock with
      | .err e => ((.err e, block, []), h)
      | .ok =>
        let entry : PouchEntry := ⟨path, contentType, data⟩
        match block with
        | none =>
          match blockAlloc alloc h with
          | (none, h) => ((.err .enomem, none, []), h)
          | (some new, h) =>
            let (err, bytes) := writeEntry cfg new.val entry
            ((err, some (new.set bytes), []), h)
        | some block =>
          match writeEntry cfg block.val entry with
          | (.ok, bytes) => ((.ok, some (block.set bytes), []), h)
          | (.err _, bytes) =>
            let full := block.set (blockFinish cfg bytes)
            match blockAlloc alloc h with
            | (none, h) => ((.err .enomem, none, [full]), h)
            | (some new, h) =>
              let (err, bytes) := writeEntry cfg new.val entry
              ((err, some (new.set bytes), [full]), h)
  | _, _ => ((.err .einval, block, []), h)

def entryBlockClose (lock : Ret) (block : Option BufRef) : Ret × Option BufRef × List BufRef :=
  match lock with
  | .err e => (.err e, block, [])
  | .ok =>
    match block with
    | none => (.ok, none, [])
    | some block =>
      if 0 < blockSizeGet block.val then (.ok, none, [block.set (blockFinish cfg block.val)])
      else (.ok, some block, [])

end

structure PouchStream where
  id : UInt8
  buf : BufRef
  bytes : Nat
  sessionId : UInt32

structure Streams where
  streamId : Nat
  openStreams : Nat
  live : AList (fun _ : Nat => PouchStream)
  draws : Nat

def Streams.boot : Streams := ⟨1, 0, ∅, 0⟩

def pouchUplinkStreamOpen (sessionId : UInt32) (path : CString) (contentType : UInt16)
    (malloc alloc : Bool) (s : Streams) (h : Heap) : (Option Nat × Streams) × Heap :=
  if pouchStreamsMax ≤ s.openStreams then ((none, s), h)
  else if !malloc then ((none, s), h)
  else
    let (id, streamId) := newStreamId s.streamId
    match blockAllocStream alloc id true h with
    | (none, h) => ((none, { s with streamId, draws := s.draws + 1 }), h)
    | (some buf, h) =>
      let stream : PouchStream :=
        ⟨id, buf.set (writeStreamHeader buf.val contentType path), 0, sessionId⟩
      ((some s.draws,
        ⟨streamId, s.openStreams + 1, s.live.insert s.draws stream, s.draws + 1⟩), h)

def pouchStreamIsValid (sessionId : UInt32) (stream : PouchStream) : Bool :=
  decide (stream.sessionId = sessionId)

section
variable (cfg : Config)

def streamWriteLoop (alloc : Nat → Bool) (id : UInt8) :
    Nat → Nat → BufRef → Buf → Heap → (BufRef × Buf × List BufRef) × Heap
  | 0, _, buf, data, h => ((buf, data, []), h)
  | passes + 1, allocs, buf, data, h =>
    if data.length = 0 then ((buf, data, []), h)
    else
      let space := blockSpaceGet cfg buf.val
      if space = 0 then
        match blockAllocStream (alloc allocs) id false h with
        | (none, h) => ((buf, data, []), h)
        | (some new, h) =>
          let full := buf.set (blockFinishStream cfg buf.val id false)
          let n := min (blockSpaceGet cfg new.val) data.length
          let ((last, rest, enqueued), h) := streamWriteLoop alloc id passes (allocs + 1)
            (new.set (bufWrite new.val (data.take n))) (data.drop n) h
          ((last, rest, full :: enqueued), h)
      else
        let n := min space data.length
        streamWriteLoop alloc id passes allocs (buf.set (bufWrite buf.val (data.take n)))
          (data.drop n) h

def pouchStreamWrite (sessionId : UInt32) (alloc : Nat → Bool) (stream : PouchStream) (data : Buf)
    (h : Heap) : (Nat × PouchStream × List BufRef) × Heap :=
  if !pouchStreamIsValid sessionId stream then ((0, stream, []), h)
  else
    let ((buf, rest, enqueued), h) :=
      streamWriteLoop cfg alloc stream.id data.length 0 stream.buf data h
    let written := data.length - rest.length
    ((written, { stream with buf, bytes := (stream.bytes + written) % 2^cfg.sizeBits }, enqueued), h)

def pouchStreamClose (sessionId : UInt32) (stream : PouchStream) (h : Heap) : List BufRef × Heap :=
  if pouchStreamIsValid sessionId stream && decide (0 < stream.bytes) then
    ([stream.buf.set (blockFinishStream cfg stream.buf.val stream.id true)], h)
  else ([], bufFree stream.buf h)

end

structure Writers where
  entry : Option BufRef
  streams : Streams
  sessionId : UInt32

def Writers.boot : Writers := ⟨none, .boot, 0⟩

def Writers.stream (s : Writers) (handle : Option Nat) : Option PouchStream :=
  handle.bind fun h => s.streams.live.lookup h

def writersStep (cfg : Config) (s : Writers) (h : Heap) :
    WritersOp → (Writers × WritersResult × List BufRef) × Heap
  | .streamOpen path contentType malloc alloc =>
    let ((handle, streams), h) :=
      pouchUplinkStreamOpen s.sessionId path contentType malloc alloc s.streams h
    (({ s with streams }, .opened handle, []), h)
  | .streamWrite handle data alloc =>
    match handle, s.stream handle with
    | some a, some stream =>
      let ((written, stream, enqueued), h) := pouchStreamWrite cfg s.sessionId alloc stream data h
      (({ s with streams := { s.streams with live := s.streams.live.insert a stream } },
        .written written, enqueued), h)
    | _, _ => ((s, .written 0, []), h)
  | .streamClose handle =>
    match handle, s.stream handle with
    | some a, some stream =>
      let (enqueued, h) := pouchStreamClose cfg s.sessionId stream h
      (({ s with streams :=
        { s.streams with
          openStreams := s.streams.openStreams - 1
          live := s.streams.live.erase a } }, .ret .ok, enqueued), h)
    | _, _ => ((s, .ret (.err .einval), []), h)
  | .entry (.write path contentType data lock alloc) =>
    let ((ret, entry, enqueued), h) :=
      pouchUplinkEntryWrite cfg path contentType data lock alloc s.entry h
    (({ s with entry }, .ret ret, enqueued), h)
  | .entry (.close lock) =>
    let (ret, entry, enqueued) := entryBlockClose cfg lock s.entry
    (({ s with entry }, .ret ret, enqueued), h)
  | .nextSession => (({ s with sessionId := s.sessionId + 1 }, .done, []), h)

def streamOwners (live : AList (fun _ : Nat => PouchStream)) : Multiset Nat :=
  owned (live.entries.map fun e => e.2.buf)

def Writers.owners (s : Writers) : Multiset Nat := held s.entry+streamOwners s.streams.live

theorem entries_perm {α : Type*} {live : AList (fun _ : Nat => α)} {a : Nat} {stream : α}
    (h : live.lookup a = some stream) :
    live.entries.Perm (⟨a, stream⟩ :: (live.erase a).entries) := by
  have hmem : a ∈ live := AList.lookup_isSome.mp (by rw [h]; rfl)
  obtain ⟨found, before, after, -, hsplit, hrest⟩ := List.exists_of_kerase hmem
  have hfound : live.lookup a = some found := AList.mem_lookup_iff.mpr (by rw [hsplit]; simp)
  rw [h] at hfound
  cases hfound
  have herase : (live.erase a).entries = before++after := hrest
  rw [herase, hsplit]
  exact List.perm_middle

theorem streamOwners_lookup {live : AList (fun _ : Nat => PouchStream)} {a : Nat}
    {stream : PouchStream} (h : live.lookup a = some stream) :
    streamOwners live = {stream.buf.addr}+streamOwners (live.erase a) := by
  have hperm := ((entries_perm h).map fun e => e.2.buf).map Ref.addr
  have howned : streamOwners live = owned ((⟨a, stream⟩ :: (live.erase a).entries :
      List (Sigma fun _ : Nat => PouchStream)).map fun e => e.2.buf) :=
    Multiset.coe_eq_coe.mpr hperm
  rw [howned, List.map_cons, owned_cons]
  rfl

theorem streamOwners_insert (live : AList (fun _ : Nat => PouchStream)) (a : Nat)
    (stream : PouchStream) :
    streamOwners (live.insert a stream) = {stream.buf.addr}+streamOwners (live.erase a) := by
  rw [streamOwners, AList.entries_insert, List.map_cons, owned_cons]
  rfl

theorem streamOwners_fresh {live : AList (fun _ : Nat => PouchStream)} {a : Nat} (h : a ∉ live) :
    streamOwners (live.erase a) = streamOwners live := by
  have herase : (live.erase a).entries = live.entries := List.kerase_of_notMem_keys h
  rw [streamOwners, herase]
  rfl

theorem turns_blockAlloc (alloc : Bool) (h : Heap) :
    Turns h 0 (blockAlloc alloc h).2 (held (blockAlloc alloc h).1) := by
  have ha := turns_bufAlloc alloc h
  cases alloc <;> exact ha

theorem turns_blockAllocStream (alloc : Bool) (id : UInt8) (first : Bool) (h : Heap) :
    Turns h 0 (blockAllocStream alloc id first h).2 (held (blockAllocStream alloc id first h).1) := by
  have ha := turns_bufAlloc alloc h
  cases alloc <;> exact ha

section
variable (cfg : Config)

theorem turns_entryWrite (path : Option CString) (contentType : UInt16) (data : Option Buf)
    (lock : Ret) (alloc : Bool) (block : Option BufRef) (h : Heap) :
    Turns h (held block)
      (pouchUplinkEntryWrite cfg path contentType data lock alloc block h).2
      (held (pouchUplinkEntryWrite cfg path contentType data lock alloc block h).1.2.1+
        owned (pouchUplinkEntryWrite cfg path contentType data lock alloc block h).1.2.2) := by
  have hkept : Turns h (held block) h (held block+owned ([] : List BufRef)) :=
    (Turns.refl h (held block)).congr rfl (by simp)
  unfold pouchUplinkEntryWrite
  split
  · split
    · exact hkept
    · cases lock with
      | err e => exact hkept
      | ok =>
        have halloc := turns_blockAlloc alloc h
        cases block with
        | none =>
          dsimp only
          cases hnew : blockAlloc alloc h with
          | mk new h' =>
          rw [hnew] at halloc
          cases new with
          | none => exact halloc.congr rfl (by simp)
          | some new => exact halloc.congr rfl (by simp)
        | some block =>
          dsimp only
          split
          · exact hkept
          · cases hnew : blockAlloc alloc h with
            | mk new h' =>
            rw [hnew] at halloc
            have hfull := halloc.frame {block.addr}
            rw [zero_add] at hfull
            cases new with
            | none => exact hfull.congr rfl (by simp)
            | some new => exact hfull.congr rfl (by simp)
  · exact hkept

theorem entryBlockClose_owners (lock : Ret) (block : Option BufRef) :
    held (entryBlockClose cfg lock block).2.1+owned (entryBlockClose cfg lock block).2.2 =
      held block := by
  unfold entryBlockClose
  cases lock with
  | err e => simp
  | ok =>
    cases block with
    | none => rfl
    | some block =>
      dsimp only
      split
      · simp
      · simp

/-- A stream always has a block; the ones it has filled are given away. -/
theorem turns_streamWriteLoop (alloc : Nat → Bool) (id : UInt8) (passes allocs : Nat) (buf : BufRef)
    (data : Buf) (h : Heap) :
    Turns h {buf.addr} (streamWriteLoop cfg alloc id passes allocs buf data h).2
      ({(streamWriteLoop cfg alloc id passes allocs buf data h).1.1.addr}+
        owned (streamWriteLoop cfg alloc id passes allocs buf data h).1.2.2) := by
  induction passes generalizing allocs buf data h with
  | zero => exact (Turns.refl h _).congr rfl (by simp [streamWriteLoop])
  | succ passes ih =>
    simp only [streamWriteLoop]
    split
    · exact (Turns.refl h _).congr rfl (by simp)
    · split
      · have halloc := turns_blockAllocStream (alloc allocs) id false h
        cases hnew : blockAllocStream (alloc allocs) id false h with
        | mk new h' =>
        rw [hnew] at halloc
        have hfull := halloc.frame {buf.addr}
        rw [zero_add] at hfull
        cases new with
        | none => exact hfull.congr rfl (by simp)
        | some new =>
          dsimp only
          have hrest := (ih (allocs + 1)
            (new.set (bufWrite new.val (data.take (min (blockSpaceGet cfg new.val) data.length))))
            (data.drop (min (blockSpaceGet cfg new.val) data.length)) h').frame {buf.addr}
          apply (hfull.trans hrest).congr rfl
          simp only [owned_cons, BufRef.set_addr]
          abel
      · exact ih allocs
          (buf.set (bufWrite buf.val (data.take (min (blockSpaceGet cfg buf.val) data.length)))) _ h

theorem turns_pouchStreamWrite (sessionId : UInt32) (alloc : Nat → Bool) (stream : PouchStream)
    (data : Buf) (h : Heap) :
    Turns h {stream.buf.addr} (pouchStreamWrite cfg sessionId alloc stream data h).2
      ({(pouchStreamWrite cfg sessionId alloc stream data h).1.2.1.buf.addr}+
        owned (pouchStreamWrite cfg sessionId alloc stream data h).1.2.2) := by
  unfold pouchStreamWrite
  split
  · exact (Turns.refl h _).congr rfl (by simp)
  · exact turns_streamWriteLoop cfg alloc stream.id data.length 0 stream.buf data h

theorem turns_pouchStreamClose (sessionId : UInt32) (stream : PouchStream) (h : Heap) :
    Turns h {stream.buf.addr} (pouchStreamClose cfg sessionId stream h).2
      (owned (pouchStreamClose cfg sessionId stream h).1) := by
  unfold pouchStreamClose
  split
  · exact (Turns.refl h _).congr rfl (by simp)
  · exact turns_bufFree stream.buf h

end

structure StreamsInv (s : Streams) : Prop where
  counted : s.openStreams = s.live.entries.length
  drawn : ∀ a ∈ s.live, a < s.draws

theorem streamsInv_boot : StreamsInv .boot where
  counted := rfl
  drawn a ha := absurd ha (AList.notMem_empty a)

theorem StreamsInv.fresh {s : Streams} (hs : StreamsInv s) : s.draws ∉ s.live :=
  fun hmem => Nat.lt_irrefl _ (hs.drawn _ hmem)

theorem turns_streamOpen {s : Streams} (hs : StreamsInv s) (sessionId : UInt32) (path : CString)
    (contentType : UInt16) (malloc alloc : Bool) (h : Heap) :
    StreamsInv (pouchUplinkStreamOpen sessionId path contentType malloc alloc s h).1.2 ∧
    Turns h (streamOwners s.live)
      (pouchUplinkStreamOpen sessionId path contentType malloc alloc s h).2
      (streamOwners (pouchUplinkStreamOpen sessionId path contentType malloc alloc s h).1.2.live) := by
  unfold pouchUplinkStreamOpen
  split
  · exact ⟨hs, Turns.refl h _⟩
  · split
    · exact ⟨hs, Turns.refl h _⟩
    · have halloc := (turns_blockAllocStream alloc (newStreamId s.streamId).1 true h).frame
        (streamOwners s.live)
      rw [zero_add] at halloc
      dsimp only
      cases hnew : blockAllocStream alloc (newStreamId s.streamId).1 true h with
      | mk new h' =>
      rw [hnew] at halloc
      cases new with
      | none =>
        constructor
        · exact ⟨hs.counted, fun a ha => Nat.lt_succ_of_lt (hs.drawn a ha)⟩
        · exact halloc.congr rfl (by simp)
      | some new =>
        constructor
        · constructor
          · rw [AList.entries_insert_of_notMem hs.fresh, List.length_cons, hs.counted]
          · intro a ha
            cases (AList.mem_insert _).mp ha with
            | inl hlast => rw [hlast]; exact Nat.lt_succ_self _
            | inr hold => exact Nat.lt_succ_of_lt (hs.drawn a hold)
        · apply halloc.congr rfl
          rw [streamOwners_insert, streamOwners_fresh hs.fresh]
          rfl

theorem StreamsInv.insert {s : Streams} (hs : StreamsInv s) {a : Nat} {stream stream' : PouchStream}
    (hlookup : s.live.lookup a = some stream) :
    StreamsInv { s with live := s.live.insert a stream' } where
  counted := by
    rw [hs.counted, (entries_perm hlookup).length_eq, AList.entries_insert, List.length_cons,
      List.length_cons]
    rfl
  drawn b hb := by
    have hmem : a ∈ s.live := AList.lookup_isSome.mp (by rw [hlookup]; rfl)
    cases (AList.mem_insert _).mp hb with
    | inl heq => exact heq ▸ hs.drawn a hmem
    | inr hold => exact hs.drawn b hold

theorem StreamsInv.erase {s : Streams} (hs : StreamsInv s) {a : Nat} {stream : PouchStream}
    (hlookup : s.live.lookup a = some stream) :
    StreamsInv { s with openStreams := s.openStreams - 1, live := s.live.erase a } where
  counted := by
    rw [hs.counted, (entries_perm hlookup).length_eq, List.length_cons]
    exact Nat.add_sub_cancel ..
  drawn b hb := hs.drawn b (AList.mem_erase.mp hb).2

section
variable (cfg : Config)

/-- A call of the entry or stream API hands on every block: to whoever holds it in the
module, or to uplink_enqueue. -/
theorem turns_writersStep {s : Writers} (hs : StreamsInv s.streams) (h : Heap) (op : WritersOp) :
    StreamsInv (writersStep cfg s h op).1.1.streams ∧
    Turns h s.owners (writersStep cfg s h op).2
      ((writersStep cfg s h op).1.1.owners+owned (writersStep cfg s h op).1.2.2) := by
  have hkept : Turns h s.owners h (s.owners+owned ([] : List BufRef)) :=
    (Turns.refl h _).congr rfl (by simp)
  cases op with
  | streamOpen path contentType malloc alloc =>
    obtain ⟨hinv, hturns⟩ :=
      turns_streamOpen hs s.sessionId path contentType malloc alloc h
    refine ⟨hinv, ?_⟩
    apply (hturns.frame (held s.entry)).congr
    · rw [Writers.owners, add_comm]
    · simp only [writersStep, Writers.owners, owned_nil]
      abel
  | streamWrite handle data alloc =>
    cases handle with
    | none => exact ⟨hs, hkept⟩
    | some a =>
      cases hlookup : s.streams.live.lookup a with
      | none =>
        simp only [writersStep, Writers.stream, Option.bind_some, hlookup]
        exact ⟨hs, hkept⟩
      | some stream =>
        simp only [writersStep, Writers.stream, Option.bind_some, hlookup]
        refine ⟨hs.insert hlookup, ?_⟩
        have hwrite := turns_pouchStreamWrite cfg s.sessionId alloc stream data h
        apply (hwrite.frame (held s.entry+streamOwners (s.streams.live.erase a))).congr
        · rw [Writers.owners, streamOwners_lookup hlookup]
          abel
        · simp only [Writers.owners, streamOwners_insert]
          abel
  | streamClose handle =>
    cases handle with
    | none => exact ⟨hs, hkept⟩
    | some a =>
      cases hlookup : s.streams.live.lookup a with
      | none =>
        simp only [writersStep, Writers.stream, Option.bind_some, hlookup]
        exact ⟨hs, hkept⟩
      | some stream =>
        simp only [writersStep, Writers.stream, Option.bind_some, hlookup]
        refine ⟨hs.erase hlookup, ?_⟩
        have hclose := turns_pouchStreamClose cfg s.sessionId stream h
        apply (hclose.frame (held s.entry+streamOwners (s.streams.live.erase a))).congr
        · rw [Writers.owners, streamOwners_lookup hlookup]
          abel
        · simp only [Writers.owners]
          abel
  | entry op =>
    cases op with
    | write path contentType data lock alloc =>
      refine ⟨hs, ?_⟩
      have hwrite := turns_entryWrite cfg path contentType data lock alloc s.entry h
      apply (hwrite.frame (streamOwners s.streams.live)).congr rfl
      simp only [writersStep, Writers.owners]
      abel
    | close lock =>
      refine ⟨hs, ?_⟩
      apply (Turns.refl h _).congr rfl
      simp only [writersStep, Writers.owners, ← entryBlockClose_owners cfg lock s.entry]
      abel
  | nextSession => exact ⟨hs, hkept⟩

end

def PouchStream.erase (stream : PouchStream) : Pouch.PouchStream :=
  ⟨stream.id, stream.buf.val, stream.bytes, stream.sessionId⟩

structure WritersMatch (m : Writers) (v : Pouch.Writers) : Prop where
  entry : v.entry = m.entry.map Ref.val
  streamId : v.streams.streamId = m.streams.streamId
  openStreams : v.streams.openStreams = m.streams.openStreams
  draws : v.streams.draws = m.streams.draws
  live : ∀ a, v.streams.live.lookup a = (m.streams.live.lookup a).map PouchStream.erase
  sessionId : v.sessionId = m.sessionId

theorem blockAlloc_erase (alloc : Bool) (h : Heap) :
    Pouch.blockAlloc alloc = (blockAlloc alloc h).1.map Ref.val := by
  cases alloc <;> rfl

theorem blockAllocStream_erase (alloc : Bool) (id : UInt8) (first : Bool) (h : Heap) :
    Pouch.blockAllocStream alloc id first = (blockAllocStream alloc id first h).1.map Ref.val := by
  cases alloc <;> rfl

section
variable (cfg : Config)

theorem entryWrite_erase (path : Option CString) (contentType : UInt16) (data : Option Buf)
    (lock : Ret) (alloc : Bool) (block : Option BufRef) (h : Heap) :
    Pouch.pouchUplinkEntryWrite cfg path contentType data lock alloc (block.map Ref.val) =
      ((pouchUplinkEntryWrite cfg path contentType data lock alloc block h).1.1,
        (pouchUplinkEntryWrite cfg path contentType data lock alloc block h).1.2.1.map Ref.val,
        (pouchUplinkEntryWrite cfg path contentType data lock alloc block h).1.2.2.map Ref.val) := by
  cases path with
  | none => rfl
  | some path =>
  cases data with
  | none => rfl
  | some data =>
    by_cases hlen : data.length = 0
    · simp [pouchUplinkEntryWrite, Pouch.pouchUplinkEntryWrite, hlen]
    · simp only [pouchUplinkEntryWrite, Pouch.pouchUplinkEntryWrite, hlen, if_false,
        blockAlloc_erase alloc h]
      cases lock with
      | err e => rfl
      | ok =>
        cases block with
        | none =>
          cases hnew : blockAlloc alloc h with
          | mk new h' => cases new <;> rfl
        | some block =>
          dsimp only [Option.map_some]
          cases hwrite : writeEntry cfg block.val ⟨path, contentType, data⟩ with
          | mk ret bytes =>
          cases ret with
          | ok => rfl
          | err e =>
            cases hnew : blockAlloc alloc h with
            | mk new h' => cases new <;> rfl

theorem entryBlockClose_erase (lock : Ret) (block : Option BufRef) :
    Pouch.entryBlockClose cfg lock (block.map Ref.val) =
      ((entryBlockClose cfg lock block).1, (entryBlockClose cfg lock block).2.1.map Ref.val,
        (entryBlockClose cfg lock block).2.2.map Ref.val) := by
  cases lock with
  | err e => rfl
  | ok =>
    cases block with
    | none => rfl
    | some block =>
      simp only [entryBlockClose, Pouch.entryBlockClose, Option.map_some]
      split <;> rfl

theorem streamWriteLoop_erase (alloc : Nat → Bool) (id : UInt8) (passes allocs : Nat) (buf : BufRef)
    (data : Buf) (h : Heap) :
    Pouch.streamWriteLoop cfg alloc id passes allocs buf.val data =
      ((streamWriteLoop cfg alloc id passes allocs buf data h).1.1.val,
        (streamWriteLoop cfg alloc id passes allocs buf data h).1.2.1,
        (streamWriteLoop cfg alloc id passes allocs buf data h).1.2.2.map Ref.val) := by
  induction passes generalizing allocs buf data h with
  | zero => rfl
  | succ passes ih =>
    simp only [streamWriteLoop, Pouch.streamWriteLoop]
    split
    · rfl
    · split
      · rw [blockAllocStream_erase (alloc allocs) id false h]
        cases hnew : blockAllocStream (alloc allocs) id false h with
        | mk new h' =>
        cases new with
        | none => rfl
        | some new =>
          dsimp only [Option.map_some]
          rw [← BufRef.set_val new (bufWrite new.val _), ih]
          rfl
      · exact ih allocs (buf.set _) _ h

theorem pouchStreamWrite_erase (sessionId : UInt32) (alloc : Nat → Bool) (stream : PouchStream)
    (data : Buf) (h : Heap) :
    Pouch.pouchStreamWrite cfg sessionId alloc stream.erase data =
      ((pouchStreamWrite cfg sessionId alloc stream data h).1.1,
        (pouchStreamWrite cfg sessionId alloc stream data h).1.2.1.erase,
        (pouchStreamWrite cfg sessionId alloc stream data h).1.2.2.map Ref.val) := by
  have hvalid : Pouch.pouchStreamIsValid sessionId stream.erase =
    pouchStreamIsValid sessionId stream := rfl
  simp only [pouchStreamWrite, Pouch.pouchStreamWrite, hvalid]
  split
  · rfl
  · have hloop := streamWriteLoop_erase cfg alloc stream.id data.length 0 stream.buf data h
    simp only [PouchStream.erase, hloop]

theorem pouchStreamClose_erase (sessionId : UInt32) (stream : PouchStream) (h : Heap) :
    Pouch.pouchStreamClose cfg sessionId stream.erase =
      (pouchStreamClose cfg sessionId stream h).1.map Ref.val := by
  have hvalid : Pouch.pouchStreamIsValid sessionId stream.erase =
    pouchStreamIsValid sessionId stream := rfl
  have hbytes : stream.erase.bytes = stream.bytes := rfl
  simp only [pouchStreamClose, Pouch.pouchStreamClose, hvalid, hbytes]
  split <;> rfl

theorem WritersMatch.insert {m : Writers} {v : Pouch.Writers} (hm : WritersMatch m v) (a : Nat)
    (stream : PouchStream) :
    WritersMatch
      { m with streams := { m.streams with live := m.streams.live.insert a stream } }
      { v with streams := { v.streams with live := v.streams.live.insert a stream.erase } } where
  entry := hm.entry
  streamId := hm.streamId
  openStreams := hm.openStreams
  draws := hm.draws
  live b := by
    by_cases hb : b = a
    · subst hb
      rw [AList.lookup_insert, AList.lookup_insert, Option.map_some]
    · rw [AList.lookup_insert_ne hb, AList.lookup_insert_ne hb, hm.live b]
  sessionId := hm.sessionId

theorem WritersMatch.erase {m : Writers} {v : Pouch.Writers} (hm : WritersMatch m v) (a : Nat) :
    WritersMatch
      { m with streams := { m.streams with live := m.streams.live.erase a } }
      { v with streams := { v.streams with live := v.streams.live.erase a } } where
  entry := hm.entry
  streamId := hm.streamId
  openStreams := hm.openStreams
  draws := hm.draws
  live b := by
    by_cases hb : b = a
    · subst hb
      rw [AList.lookup_erase, AList.lookup_erase, Option.map_none]
    · rw [AList.lookup_erase_ne hb, AList.lookup_erase_ne hb, hm.live b]
  sessionId := hm.sessionId

theorem streamOpen_match {m : Writers} {v : Pouch.Writers} (hm : WritersMatch m v) (path : CString)
    (contentType : UInt16) (malloc alloc : Bool) (h : Heap) :
    (Pouch.pouchUplinkStreamOpen v.sessionId path contentType malloc alloc v.streams).1 =
      (pouchUplinkStreamOpen m.sessionId path contentType malloc alloc m.streams h).1.1 ∧
    WritersMatch
      { m with streams :=
        (pouchUplinkStreamOpen m.sessionId path contentType malloc alloc m.streams h).1.2 }
      { v with streams :=
        (Pouch.pouchUplinkStreamOpen v.sessionId path contentType malloc alloc v.streams).2 } := by
  obtain ⟨entry, ⟨streamId, openStreams, live, draws⟩, sessionId⟩ := v
  have hlive := hm.live
  have hinsert := hm.insert m.streams.draws
  obtain ⟨rfl, rfl, rfl, rfl, -, rfl⟩ := hm
  simp only [pouchUplinkStreamOpen, Pouch.pouchUplinkStreamOpen,
    blockAllocStream_erase alloc (newStreamId m.streams.streamId).1 true h]
  split
  · exact ⟨rfl, ⟨rfl, rfl, rfl, rfl, hlive, rfl⟩⟩
  · split
    · exact ⟨rfl, ⟨rfl, rfl, rfl, rfl, hlive, rfl⟩⟩
    · cases hnew : blockAllocStream alloc (newStreamId m.streams.streamId).1 true h with
      | mk new h' =>
      cases new with
      | none => exact ⟨rfl, ⟨rfl, rfl, rfl, rfl, hlive, rfl⟩⟩
      | some new =>
        have hnext := hinsert ⟨(newStreamId m.streams.streamId).1,
          new.set (writeStreamHeader new.val contentType path), 0, m.sessionId⟩
        exact ⟨rfl, ⟨rfl, rfl, rfl, rfl, hnext.live, rfl⟩⟩

/-- Entries and streams on the heap do what they do on contents. -/
theorem writersStep_match {m : Writers} {v : Pouch.Writers} (hm : WritersMatch m v) (h : Heap)
    (op : WritersOp) :
    WritersMatch (writersStep cfg m h op).1.1 (Pouch.writersStep cfg v op).1 ∧
    (Pouch.writersStep cfg v op).2 =
      ⟨(writersStep cfg m h op).1.2.1, (writersStep cfg m h op).1.2.2.map Ref.val⟩ := by
  have hstream (a : Nat) : v.stream (some a) = (m.stream (some a)).map PouchStream.erase := hm.live a
  cases op with
  | streamOpen path contentType malloc alloc =>
    obtain ⟨hret, hmatch⟩ := streamOpen_match hm path contentType malloc alloc h
    exact ⟨hmatch, by simp only [writersStep, Pouch.writersStep, hret, List.map_nil]⟩
  | streamWrite handle data alloc =>
    cases handle with
    | none => exact ⟨hm, rfl⟩
    | some a =>
      simp only [writersStep, Pouch.writersStep, hstream a]
      cases hlookup : m.stream (some a) with
      | none => exact ⟨hm, rfl⟩
      | some stream =>
        have hsame : Pouch.pouchStreamWrite cfg v.sessionId alloc stream.erase data =
            Pouch.pouchStreamWrite cfg m.sessionId alloc stream.erase data := by rw [hm.sessionId]
        simp only [Option.map_some, hsame, pouchStreamWrite_erase cfg m.sessionId alloc stream data h]
        exact ⟨hm.insert a _, trivial⟩
  | streamClose handle =>
    cases handle with
    | none => exact ⟨hm, rfl⟩
    | some a =>
      simp only [writersStep, Pouch.writersStep, hstream a]
      cases hlookup : m.stream (some a) with
      | none => exact ⟨hm, rfl⟩
      | some stream =>
        have hsame : Pouch.pouchStreamClose cfg v.sessionId stream.erase =
            Pouch.pouchStreamClose cfg m.sessionId stream.erase := by rw [hm.sessionId]
        have herase := hm.erase a
        simp only [Option.map_some, hsame, pouchStreamClose_erase cfg m.sessionId stream h]
        refine ⟨⟨hm.entry, hm.streamId, ?_, hm.draws, herase.live, hm.sessionId⟩, trivial⟩
        exact congrArg (· - 1) hm.openStreams
  | entry op =>
    cases op with
    | write path contentType data lock alloc =>
      simp only [writersStep, Pouch.writersStep, entryStep, hm.entry,
        entryWrite_erase cfg path contentType data lock alloc m.entry h]
      exact ⟨⟨rfl, hm.streamId, hm.openStreams, hm.draws, hm.live, hm.sessionId⟩, trivial⟩
    | close lock =>
      simp only [writersStep, Pouch.writersStep, entryStep, hm.entry, entryBlockClose_erase]
      exact ⟨⟨rfl, hm.streamId, hm.openStreams, hm.draws, hm.live, hm.sessionId⟩, trivial⟩
  | nextSession =>
    exact ⟨⟨hm.entry, hm.streamId, hm.openStreams, hm.draws, hm.live,
      congrArg (· + 1) hm.sessionId⟩, rfl⟩

end

end Pouch.Mem
