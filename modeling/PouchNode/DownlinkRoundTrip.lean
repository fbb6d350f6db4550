import PouchNode.DownlinkParse
import PouchNode.StreamSegments

/-! The consumer reads what the writers have written: entry blocks give back their entries,
and the blocks of a stream its path, its content type and its data. -/
namespace Pouch
open Octets Machine Chunks

inductive HandlerCall where
  | start (streamId : UInt32) (path : CString) (contentType : UInt16)
  | data (streamId : UInt32) (data : Buf) (len : Nat) (isLast : Bool)
  deriving DecidableEq

def PushEvent.call : PushEvent → Option HandlerCall
  | .start streamId path contentType => some (.start streamId path contentType)
  | .data streamId pointer bytes isLast =>
    some (.data streamId ((pointer.getD []).take bytes) bytes isLast)
  | _ => none

def handlerCalls (cfg : Config) (block : Buf) : Option (List HandlerCall) :=
  let (returned, events) := blockPush cfg block.length block
  if returned then some (events.filterMap PushEvent.call) else none

def handlerCallsAll (cfg : Config) : List Buf → Option (List HandlerCall)
  | [] => some []
  | block :: blocks => do
    let calls ← handlerCalls cfg block
    let rest ← handlerCallsAll cfg blocks
    return calls++rest

section Entries
variable {cfg : Config}

def PouchEntry.calls (entry : PouchEntry) : List HandlerCall :=
  [.start 0 entry.path entry.contentType, .data 0 entry.data entry.data.length true]

def writeEntries (cfg : Config) : Buf → List PouchEntry → Option Buf
  | block, [] => some block
  | block, entry :: entries =>
    match writeEntry cfg block entry with
    | (.ok, block) => writeEntries cfg block entries
    | (.err _, _) => none

def PouchEntry.Short (entry : PouchEntry) : Prop :=
  strlen entry.path ≤ 255 ∧ entry.data.length ≤ 65535

def PouchEntry.raw (entry : PouchEntry) (h : entry.Short) : RawEntry :=
  ⟨entry.contentType, entry.path.chars, entry.data, Nat.lt_succ_of_le h.1, Nat.lt_succ_of_le h.2⟩

theorem cString_chars (path : CString) : cString path.chars = path := by
  obtain ⟨chars, hnul⟩ := path
  simp only [cString, CString.mk.injEq]
  exact cString_eq_self hnul

theorem PouchEntry.Short.size_lt (cfg : Config) {entry : PouchEntry} (h : entry.Short) :
    entry.size < 2^cfg.sizeBits := by
  have hs := cfg.two_pow_le_sizeBits
  have hpath := h.1
  have hdata := h.2
  simp only [PouchEntry.size, entryHeaderOverhead]
  omega

theorem writeEntries_openBlock {entries : List PouchEntry} {payload block : Buf}
    (hshort : ∀ entry ∈ entries, entry.Short) (hp : payload.length ≤ cfg.maxBlockPayloadSize)
    (h : writeEntries cfg (openBlock 0xC0 payload) entries = some block) :
    block = openBlock 0xC0 (payload++encodings entries) ∧
      (payload++encodings entries).length ≤ cfg.maxBlockPayloadSize := by
  induction entries generalizing payload with
  | nil =>
    simp only [writeEntries, Option.some.injEq] at h
    simp [← h, hp]
  | cons entry entries ih =>
    have hentry := hshort entry (by simp)
    rw [writeEntries, writeEntry_openBlock hp (hentry.size_lt cfg)] at h
    by_cases hfit : payload.length + entry.size ≤ cfg.maxBlockPayloadSize
    · simp only [hfit, if_true] at h
      have hnext := ih (fun e he => hshort e (by simp [he]))
        (by rw [List.length_append, length_encoding]; exact hfit) h
      simpa [encodings] using hnext
    · simp [hfit] at h

theorem entriesEvents_calls (offset : Nat) (entries : List PouchEntry)
    (hshort : ∀ entry ∈ entries, entry.Short) :
    ∃ es : List RawEntry, es.flatMap RawEntry.encoding = encodings entries ∧
      (entriesEvents offset es).filterMap PushEvent.call = entries.flatMap PouchEntry.calls := by
  induction entries generalizing offset with
  | nil => exact ⟨[], rfl, rfl⟩
  | cons entry entries ih =>
    have hentry := hshort entry (by simp)
    obtain ⟨es, henc, hcalls⟩ := ih (offset + (entry.raw hentry).encoding.length)
      (fun e he => hshort e (by simp [he]))
    refine ⟨entry.raw hentry :: es, ?_, ?_⟩
    · rw [List.flatMap_cons, henc]
      rfl
    · rw [entriesEvents, List.filterMap_append, hcalls, List.flatMap_cons]
      congr 1
      simp [RawEntry.events, List.filterMap_cons, PushEvent.call, PouchEntry.raw, PouchEntry.calls,
        cString_chars]

theorem length_rawEncodings (es : List RawEntry) :
    5*es.length ≤ (es.flatMap RawEntry.encoding).length := by
  induction es with
  | nil => simp
  | cons e es ih =>
    have hlen := e.length_encoding
    rw [List.flatMap_cons, List.length_append, List.length_cons]
    omega

/-- The entries of one block come back in order. -/
theorem entries_read_back {entries : List PouchEntry} {block : Buf}
    (hshort : ∀ entry ∈ entries, entry.Short)
    (h : writeEntries cfg (openBlock 0xC0 []) entries = some block) :
    handlerCalls cfg (blockFinish cfg block) = some (entries.flatMap PouchEntry.calls) := by
  obtain ⟨rfl, hfit⟩ := writeEntries_openBlock hshort (by simp) h
  rw [List.nil_append] at hfit ⊢
  rw [blockFinish_openBlock hfit]
  obtain ⟨es, henc, hcalls⟩ := entriesEvents_calls 3 entries hshort
  have hmax := cfg.maxCiphertextBlockSize_lt
  simp only [Config.maxCiphertextBlockSize, Config.maxPlaintextBlockSize] at hmax
  have hb : (closedBlock 0xC0 (encodings entries)).length < 2^cfg.sizeBits := by
    rw [length_closedBlock]
    omega
  have hstream : (blockHdr (closedBlock 0xC0 (encodings entries))).isStream = false := by
    rw [blockHdr_closedBlock]
    rfl
  have hcount : es.length < (closedBlock 0xC0 (encodings entries)).length := by
    have hfive := length_rawEncodings es
    rw [length_closedBlock, ← henc]
    omega
  have hrest : (closedBlock 0xC0 (encodings entries)).drop 3 = es.flatMap RawEntry.encoding :=
    henc.symm
  have hloop := entriesPush_whole [.read 0 2, .read 2 1] hb es hcount (by simp) hrest
  simp only [handlerCalls, blockPush_eq, hstream, Bool.false_eq_true, if_false, hloop, if_true]
  simp [List.filterMap_cons, PushEvent.call, hcalls]

end Entries
section Streams
variable {cfg : Config} {k : Nat} {first last : Bool} {b q : Buf}

def dataCall (streamId : UInt32) (isLast : Bool) (q : Buf) : HandlerCall :=
  .data streamId (q.take (q.length % 65536)) (q.length % 65536) isLast

def rawHeader (contentType : UInt16) (path : CString) (h : strlen path ≤ 255) : RawStream :=
  ⟨contentType, path.chars, Nat.lt_succ_of_le h⟩

theorem handlerCalls_next (hb : b.length < 2^cfg.sizeBits) (hthree : 3 ≤ b.length) {n : Nat}
    {id : UInt8} (hdr : blockHdr b = ⟨n, id, true, false, last⟩) :
    handlerCalls cfg b = some [dataCall id.toUInt32 last (blockPayload b)] := by
  have hpush := streamDataPush_eq [.read 0 2, .read 2 1] hb hthree id last
  simp only [handlerCalls, blockPush_eq, hdr, if_true, streamPush_next, hpush]
  simp [List.filterMap_cons, PushEvent.call, dataCall, blockPayload]

theorem handlerCalls_first (hb : b.length < 2^cfg.sizeBits) {n : Nat} {id : UInt8}
    (hdr : blockHdr b = ⟨n, id, true, true, last⟩) {h : RawStream} {data : Buf}
    (hpayload : blockPayload b = h.encoding++data) :
    handlerCalls cfg b = some [.start id.toUInt32 (cString h.path) h.contentType,
      dataCall id.toUInt32 last data] := by
  have hlen := congrArg List.length hpayload
  have hhead := h.length_encoding
  simp only [blockPayload, List.length_drop, List.length_append] at hlen
  have hrest : b.length - (3 + h.encoding.length) = data.length := by omega
  have hdata : b.drop (3 + h.encoding.length) = data := by
    rw [← List.drop_drop, ← blockPayload, hpayload, List.drop_left]
  have hpush := streamDataPush_eq ([.read 0 2, .read 2 1]++h.events id 3 data) hb
    (by omega : 3 + h.encoding.length ≤ b.length) id last
  simp only [handlerCalls, blockPush_eq, hdr, if_true, streamPush_first,
    streamStartPush_whole hb hpayload, hpush]
  simp [List.filterMap_cons, RawStream.events, PushEvent.call, dataCall, hrest, hdata]

theorem handlerCallsAll_append (bs cs : List Buf) :
    handlerCallsAll cfg (bs++cs) = do
      let calls ← handlerCallsAll cfg bs
      let rest ← handlerCallsAll cfg cs
      return calls++rest := by
  induction bs with
  | nil => simp [handlerCallsAll]
  | cons b bs ih => simp [handlerCallsAll, ih, Option.bind_assoc]

theorem handlerCallsAll_segments (full : List Buf)
    (hfull : ∀ q ∈ full, 3 + q.length < 2^cfg.sizeBits) :
    handlerCallsAll cfg (segments (streamIdAt k) false full) =
      some (full.map (dataCall (streamIdAt k).toUInt32 false)) := by
  induction full with
  | nil => rfl
  | cons q full ih =>
    have hone : handlerCalls cfg (closedBlock (flagged (streamIdAt k) false) q) =
        some [dataCall (streamIdAt k).toUInt32 false q] :=
      handlerCalls_next (by simpa using hfull q (by simp)) (by simp) (blockHdr_open k false q)
    simp [segments, handlerCallsAll, hone, ih fun r hr => hfull r (by simp [hr])]

variable {contentType : UInt16} {path : CString} {full : List Buf} {tail data : Buf}

def startCall (k : Nat) (contentType : UInt16) (path : CString) : HandlerCall :=
  .start (streamIdAt k).toUInt32 path contentType

theorem handlerCalls_head (hpath : strlen path ≤ 255) {byte : UInt8} {n : Nat} {c : Buf}
    (hb : 3 + (streamHeader contentType path++c).length < 2^cfg.sizeBits)
    (hdr : blockHdr (closedBlock byte (streamHeader contentType path++c)) =
      ⟨n, streamIdAt k, true, true, last⟩) :
    handlerCalls cfg (closedBlock byte (streamHeader contentType path++c)) =
      some [startCall k contentType path, dataCall (streamIdAt k).toUInt32 last c] := by
  have hread := handlerCalls_first (by rw [length_closedBlock]; exact hb) hdr
    (rfl : _ = (rawHeader contentType path hpath).encoding++c)
  rw [hread, rawHeader, cString_chars]
  rfl

theorem payload_lt (hcut : Cut cfg.maxBlockPayloadSize full tail data) :
    ∀ q ∈ full++[tail], 3 + q.length < 2^cfg.sizeBits := by
  have hmax := cfg.maxCiphertextBlockSize_lt
  simp only [Config.maxCiphertextBlockSize, Config.maxPlaintextBlockSize] at hmax
  intro q hq
  have hle := hcut.length_le q hq
  omega

theorem segments_calls (hpath : strlen path ≤ 255) (hfit : 3 + strlen path ≤ cfg.maxBlockPayloadSize)
    (hcut : Cut cfg.maxBlockPayloadSize full tail (streamHeader contentType path++data)) :
    handlerCallsAll cfg (segments (streamIdAt k) true full) = some [] ∨
      ∃ parts : List Buf, parts ≠ [] ∧
        handlerCallsAll cfg (segments (streamIdAt k) true full) =
          some (startCall k contentType path ::
            parts.map (dataCall (streamIdAt k).toUInt32 false)) := by
  have hlt := payload_lt hcut
  cases hcut.front ((length_streamHeader contentType path).trans_le hfit) with
  | inl hone =>
    rw [hone.1]
    exact Or.inl rfl
  | inr hmore =>
    obtain ⟨c, more, rfl, -⟩ := hmore
    have hhead := handlerCalls_head hpath (hlt _ (by simp))
      (blockHdr_open k true (streamHeader contentType path++c))
    have hrest := handlerCallsAll_segments (k := k) more fun q hq => hlt q (by simp [hq])
    refine Or.inr ⟨c :: more, by simp, ?_⟩
    simp [segments, handlerCallsAll, hhead, hrest]

def DataFits (cfg : Config) (pathLen dataLen : Nat) : Prop :=
  cfg.maxBlockPayloadSize ≤ 32768 ∨ dataLen < 65536 ∨
    cfg.maxBlockPayloadSize = 65536 ∧ 3 + pathLen + dataLen < 131072

theorem dataFits_one {pathLen dataLen : Nat}
    (hcut : 3 + pathLen + dataLen ≤ cfg.maxBlockPayloadSize) :
    dataLen < 65536 ↔ DataFits cfg pathLen dataLen := by
  unfold DataFits
  omega

theorem dataFits_more {pathLen : Nat} {c : Buf} {more : List Buf} (hpath : pathLen ≤ 255)
    (hc : 3 + pathLen + c.length = cfg.maxBlockPayloadSize)
    (hmore : ∀ q ∈ more, q.length = cfg.maxBlockPayloadSize)
    (htail : tail.length ≤ cfg.maxBlockPayloadSize)
    (hlen : 3 + pathLen + data.length = (more.length + 1)*cfg.maxBlockPayloadSize + tail.length) :
    (∀ q ∈ c :: more++[tail], q.length < 65536) ↔ DataFits cfg pathLen data.length := by
  unfold DataFits
  cases cfg.maxBlockPayloadSize_large with
  | inl hsmall =>
    refine iff_of_true ?_ (Or.inl hsmall)
    intro q hq
    simp only [List.cons_append, List.mem_cons, List.mem_append, List.not_mem_nil, or_false] at hq
    rcases hq with rfl | hq | rfl
    · omega
    · have hm := hmore q hq
      omega
    · omega
  | inr hlarge =>
    cases more with
    | nil =>
      simp only [List.length_nil, Nat.zero_add, Nat.one_mul] at hlen
      simp
      omega
    | cons q more =>
      have hm := hmore q (by simp)
      have hbig : ¬ q.length < 65536 := by omega
      have htwo : 2*cfg.maxBlockPayloadSize ≤ ((q :: more).length + 1)*cfg.maxBlockPayloadSize :=
        Nat.mul_le_mul_right _ (by simp)
      apply iff_of_false (fun hall => hbig (hall q (by simp)))
      omega

theorem closedSegments_calls (hpath : strlen path ≤ 255)
    (hfit : 3 + strlen path ≤ cfg.maxBlockPayloadSize)
    (hcut : Cut cfg.maxBlockPayloadSize full tail (streamHeader contentType path++data)) :
    ∃ (parts : List Buf) (rest : Buf), parts.flatten++rest = data ∧
      handlerCallsAll cfg (closedSegments (streamIdAt k) true full tail) =
        some (startCall k contentType path ::
          parts.map (dataCall (streamIdAt k).toUInt32 false)++
          [dataCall (streamIdAt k).toUInt32 true rest]) ∧
      ((∀ q ∈ parts++[rest], q.length < 65536) ↔ DataFits cfg (strlen path) data.length) := by
  have hlt := payload_lt hcut
  have hlen := hcut.length
  have htail := hcut.last_length
  rw [List.length_append, length_streamHeader] at hlen
  cases hcut.front ((length_streamHeader contentType path).trans_le hfit) with
  | inl hone =>
    obtain ⟨rfl, rfl⟩ := hone
    have hhead := handlerCalls_head hpath (hlt _ (by simp))
      (blockHdr_stream k true true (streamHeader contentType path++data))
    rw [List.length_append, length_streamHeader] at htail
    refine ⟨[], data, rfl, ?_, by simpa using dataFits_one htail⟩
    simp only [if_true] at hhead
    simp [closedSegments, segments, handlerCallsAll, hhead]
  | inr hmore =>
    obtain ⟨c, more, rfl, hflat⟩ := hmore
    have hhead := handlerCalls_head hpath (hlt _ (by simp))
      (blockHdr_open k true (streamHeader contentType path++c))
    have hrest := handlerCallsAll_segments (k := k) more fun q hq => hlt q (by simp [hq])
    have hlast := handlerCalls_next (by simpa using hlt tail (by simp)) (by simp)
      (blockHdr_stream k false true tail)
    have hc := hcut.full_length _ (List.mem_cons_self)
    rw [List.length_append, length_streamHeader] at hc
    have hshort := dataFits_more hpath hc
      (fun q hq => hcut.full_length q (List.mem_cons_of_mem _ hq)) htail hlen
    refine ⟨c :: more, tail, by simpa using hflat, ?_, hshort⟩
    simp only [if_true] at hlast
    simp [closedSegments, segments, handlerCallsAll_append, handlerCallsAll, hhead, hrest, hlast]

end Streams

def Delivered (streamId : UInt32) (path : CString) (contentType : UInt16) (data : Buf)
    (calls : List HandlerCall) : Prop :=
  ∃ (parts : List Buf) (rest : Buf), parts.flatten++rest = data ∧
    calls = .start streamId path contentType ::
      parts.map (fun d => .data streamId d d.length false)++[.data streamId rest rest.length true]

def HandlerCall.bytes : HandlerCall → Buf
  | .start _ _ _ => []
  | .data _ bytes _ _ => bytes

@[simp] theorem HandlerCall.bytes_start (streamId : UInt32) (path : CString) (contentType : UInt16) :
    (HandlerCall.start streamId path contentType).bytes = [] := rfl
@[simp] theorem HandlerCall.bytes_data (streamId : UInt32) (data : Buf) (len : Nat) (isLast : Bool) :
    (HandlerCall.data streamId data len isLast).bytes = data := rfl

def short16 (q : Buf) : Buf := q.take (q.length % 65536)

theorem short16_eq_iff (q : Buf) : (short16 q).length = q.length ↔ q.length < 65536 := by
  rw [short16, List.length_take]
  omega

theorem length_short16_le (q : Buf) : (short16 q).length ≤ q.length := by
  rw [short16, List.length_take]
  omega

theorem length_flatten_short16 (qs : List Buf) :
    (qs.map short16).flatten.length ≤ qs.flatten.length ∧
    ((qs.map short16).flatten.length = qs.flatten.length ↔ ∀ q ∈ qs, q.length < 65536) := by
  induction qs with
  | nil => simp
  | cons q qs ih =>
    have hq := length_short16_le q
    have hiff := short16_eq_iff q
    simp only [List.map_cons, List.flatten_cons, List.length_append, List.forall_mem_cons, ← ih.2,
      ← hiff]
    omega

theorem dataCall_whole {streamId : UInt32} {isLast : Bool} {q : Buf} (h : q.length < 65536) :
    dataCall streamId isLast q = .data streamId q q.length isLast := by
  rw [dataCall, Nat.mod_eq_of_lt h, List.take_length]

/-- Everything arrives exactly if no block's data is cut. -/
theorem delivered_iff (streamId : UInt32) (path : CString) (contentType : UInt16)
    (parts : List Buf) (rest : Buf) :
    Delivered streamId path contentType (parts.flatten++rest)
      (.start streamId path contentType :: parts.map (dataCall streamId false)++
        [dataCall streamId true rest]) ↔
      ∀ q ∈ parts++[rest], q.length < 65536 := by
  constructor
  · intro h
    obtain ⟨ds, d, hflat, hcalls⟩ := h
    have hbytes := congrArg (List.map HandlerCall.bytes) hcalls
    have hcut : HandlerCall.bytes ∘ dataCall streamId false = short16 := rfl
    have hone : (dataCall streamId true rest).bytes = short16 rest := rfl
    have hwhole : (HandlerCall.bytes ∘ fun d : Buf => .data streamId d d.length false) = id := rfl
    have hseen : (parts++[rest]).map short16 = ds++[d] := by
      simpa [hcut, hone, hwhole] using hbytes
    rw [← (length_flatten_short16 (parts++[rest])).2, hseen]
    simp [← hflat]
  · intro h
    refine ⟨parts, rest, rfl, ?_⟩
    have hrest := h rest (by simp)
    have hparts : parts.map (dataCall streamId false) =
        parts.map fun d => .data streamId d d.length false :=
      List.map_congr_left fun q hq => dataCall_whole (h q (by simp [hq]))
    rw [hparts, dataCall_whole hrest]

section
variable {cfg : Config} {s : Writers} {h : Nat} {sid : UInt32} {header last : Buf}
  {tr : List WritersEvent} {full : List Buf}

theorem delivered_last {streamId : UInt32} {path : CString} {contentType : UInt16} {data : Buf}
    {calls : List HandlerCall} (hd : Delivered streamId path contentType data calls) :
    ∃ bytes len, calls.getLast? = some (.data streamId bytes len true) := by
  obtain ⟨parts, rest, -, rfl⟩ := hd
  exact ⟨rest, rest.length, List.getLast?_concat ..⟩

/-- A stream that is not closed properly is not delivered. -/
theorem segments_not_delivered {path : CString} {contentType : UInt16} {data : Buf}
    (hpath : strlen path ≤ 255) (hfit : 3 + strlen path ≤ cfg.maxBlockPayloadSize)
    (hcut : Cut cfg.maxBlockPayloadSize full last (streamHeader contentType path++data)) :
    ¬ ∃ calls, handlerCallsAll cfg (segments (streamIdAt h) true full) = some calls ∧
      Delivered (streamIdAt h).toUInt32 path contentType data calls := by
  intro hdel
  obtain ⟨calls, hcalls, hd⟩ := hdel
  obtain ⟨bytes, len, hlast⟩ := delivered_last hd
  cases segments_calls (k := h) hpath hfit hcut with
  | inl hnone =>
    rw [hnone] at hcalls
    cases hcalls
    cases hlast
  | inr hsome =>
    obtain ⟨parts, hne, he⟩ := hsome
    rw [he] at hcalls
    cases hcalls
    rw [List.getLast?_cons, ← List.dropLast_append_getLast hne] at hlast
    simp [dataCall] at hlast

/-- Reading back the blocks of a stream that has been closed. -/
theorem streamLife_delivered_iff {path : CString} {contentType : UInt16}
    (hpath : strlen path ≤ 255) (hfit : 3 + strlen path ≤ cfg.maxBlockPayloadSize)
    (hlife : StreamLife cfg h sid (streamHeader contentType path) tr s full last) :
    (∃ calls, handlerCallsAll cfg
        (blocksOf h (tr++[event (writersStep cfg) s (.streamClose (some h))])) = some calls ∧
      Delivered (streamIdAt h).toUInt32 path contentType (writtenTo h tr) calls) ↔
    sid = s.sessionId ∧ (writtenTo h tr).length % 2^cfg.sizeBits ≠ 0 ∧
      DataFits cfg (strlen path) (writtenTo h tr).length := by
  rw [streamLife_close hlife]
  by_cases hclosed : sid = s.sessionId ∧ (writtenTo h tr).length % 2^cfg.sizeBits ≠ 0
  · obtain ⟨parts, rest, hflat, hcalls, hfits⟩ :=
      closedSegments_calls (k := h) hpath hfit hlife.cut
    have hdel := delivered_iff (streamIdAt h).toUInt32 path contentType parts rest
    rw [hflat, hfits] at hdel
    rw [if_pos hclosed, hcalls, ← and_assoc, and_iff_right hclosed, ← hdel]
    simp [startCall]
  · rw [if_neg hclosed]
    apply iff_of_false (segments_not_delivered hpath hfit hlife.cut)
    intro hc
    exact hclosed ⟨hc.1, hc.2.1⟩

end
/-- Entries come back from their block as they were written. A stream that is opened, written
to in any interleaving and closed comes back from its blocks exactly if it is still valid when
it is closed, its byte count is not zero by then, and no block has more data than a uint16_t
can count. -/
theorem blocks_read_back_iff (cfg : Config) :
    (∀ (entries : List PouchEntry) (new block : Buf), (∀ entry ∈ entries, entry.Short) →
      blockAlloc true = some new → writeEntries cfg new entries = some block →
      handlerCalls cfg (blockFinish cfg block) = some (entries.flatMap PouchEntry.calls)) ∧
    ∀ (pre mid : List WritersOp) (path : CString) (contentType : UInt16) (malloc alloc : Bool)
      (h : Nat) (stream : PouchStream) (opened : Writers) (data : Buf),
      (writersStep cfg (writersFinal cfg .boot pre)
        (.streamOpen path contentType malloc alloc)).2.result = .opened (some h) →
      opened = writersFinal cfg .boot (pre++[.streamOpen path contentType malloc alloc]) →
      opened.streams.live.lookup h = some stream →
      strlen path ≤ 255 → 3 + strlen path ≤ cfg.maxBlockPayloadSize →
      .streamClose (some h) ∉ mid →
      data = writtenTo h (trace (writersStep cfg) opened mid) →
      ((∃ calls, handlerCallsAll cfg
          (blocksOf h (trace (writersStep cfg) opened (mid++[.streamClose (some h)]))) = some calls ∧
        Delivered stream.id.toUInt32 path contentType data calls) ↔
      pouchStreamIsValid (writersFinal cfg opened mid).sessionId stream = true ∧
        data.length % 2^cfg.sizeBits ≠ 0 ∧ DataFits cfg (strlen path) data.length) := by
  constructor
  · intro entries new block hshort halloc hwrite
    rw [blockAlloc_eq, if_pos rfl] at halloc
    cases halloc
    exact entries_read_back hshort hwrite
  · intro pre mid path contentType malloc alloc h stream opened data hopen hopened hstream hpath
      hfit hclose hdata
    have hinv : StreamsInv opened.streams := hopened ▸ writersFinal_streams cfg _
    have hstart := streamLife_opened hopen hfit
    rw [← hopened] at hstart
    obtain ⟨full, last, hlife⟩ := streamLife hinv hstart mid hclose
    have hsid : stream.sessionId = opened.sessionId := by
      have hsame := hstart.stream
      rw [hstream, Option.some.injEq] at hsame
      rw [hsame]
    have hdel := streamLife_delivered_iff hpath hfit hlife
    rw [(hinv.drawn h stream hstream).2, trace_append, pouchStreamIsValid, decide_eq_true_eq, hsid,
      hdata]
    exact hdel

theorem blocks_read_back_small :
    handlerCalls plainConfig (blockFinish plainConfig (openBlock 0xC0 [0, 1, 0, 42, 1, 0x61, 7])) =
      some [.start 0 pathA 42, .data 0 [7] 1 true] ∧
    ∃ calls, handlerCallsAll smallConfig (blocksOf 1 (trace (writersStep smallConfig)
        (writersFinal smallConfig .boot [openStream, openStream])
        ([.streamWrite (some 1) [1, 2, 3, 4, 5] (fun _ => true),
          .streamWrite (some 0) [6] (fun _ => true)]++[.streamClose (some 1)]))) = some calls ∧
      Delivered 2 pathA 0 [1, 2, 3, 4, 5] calls := by
  refine ⟨(blocks_read_back_iff plainConfig).1 [⟨pathA, 42, [7]⟩] _ _ ?_ rfl (by decide), ?_⟩
  · simp [PouchEntry.Short, strlen, pathA]
  exact ((blocks_read_back_iff smallConfig).2 [openStream] _ pathA 0 true true 1
    (openedStream 0 pathA 0 1) _ [1, 2, 3, 4, 5] rfl rfl rfl (by decide) (by decide) (by simp)
    rfl).mpr ⟨rfl, by decide, Or.inl (by decide)⟩

/-- With huge blocks, one write of 65536 bytes or more is not given to the handler whole. -/
theorem long_write_not_read_back {cfg : Config} (hmax : 131072 ≤ cfg.maxBlockPayloadSize)
    {data : Buf} (hdata : 65536 ≤ data.length) :
    ¬ ∃ calls, handlerCallsAll cfg (blocksOf 0 (trace (writersStep cfg)
        (writersFinal cfg .boot [openStream])
        ([.streamWrite (some 0) data fun _ => true]++[.streamClose (some 0)]))) = some calls ∧
      Delivered 1 pathA 0 data calls := by
  have hpath : strlen pathA = 1 := rfl
  have hopen : (writersStep cfg (writersFinal cfg .boot []) openStream).2.result =
      .opened (some 0) := rfl
  have hstart : StreamLife cfg 0 (writersFinal cfg .boot [openStream]).sessionId
      (streamHeader 0 pathA) [] (writersFinal cfg .boot [openStream]) [] (streamHeader 0 pathA) :=
    streamLife_opened hopen (by omega)
  have hwritten := written_all hstart data
  obtain ⟨full, last, hlife⟩ := streamLife (writersFinal_streams cfg [openStream]) hstart
    [.streamWrite (some 0) data fun _ => true] (by simp)
  have hall : writtenTo 0 (trace (writersStep cfg) (writersFinal cfg .boot [openStream])
      [.streamWrite (some 0) data fun _ => true]) = data := by
    rw [writtenTo, trace_cons, trace_nil, List.flatMap_singleton]
    exact hwritten
  have hdel := streamLife_delivered_iff (by decide) (by omega) hlife
  rw [hall] at hdel
  intro h
  rw [trace_append] at h
  have hfits := (hdel.mp h).2.2
  unfold DataFits at hfits
  omega

def hugeConfig : Config := .ofLog 17 .none

theorem long_stream_not_read_back :
    ¬ ∃ calls, handlerCallsAll hugeConfig (blocksOf 0 (trace (writersStep hugeConfig)
        (writersFinal hugeConfig .boot [openStream])
        ([.streamWrite (some 0) (List.replicate 65536 7) fun _ => true]++
          [.streamClose (some 0)]))) = some calls ∧
      Delivered 1 pathA 0 (List.replicate 65536 7) calls :=
  long_write_not_read_back (by decide) (List.length_replicate ▸ le_refl _)

end Pouch
