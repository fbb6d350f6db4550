import PouchNode.EntryFifo
import PouchNode.StreamRun

/-! The blocks of a closed stream. Seen through the ids in their headers, the blocks between
its opening and its closing are its header and data, cut into full blocks. -/
namespace Pouch
open Machine Chunks

structure Segmented (cfg : Config) (blocks : List Buf) (content : Buf) : Prop where
  content : blocks.flatMap blockPayload = content
  first : ∀ i b, blocks[i]? = some b → ((blockHdr b).isFirst = true ↔ i = 0)
  last : ∀ i b, blocks[i]? = some b → ((blockHdr b).isLast = true ↔ i + 1 = blocks.length)
  full : ∀ b ∈ blocks.dropLast, b.length = cfg.maxPlaintextBlockSize
  data : ∀ b ∈ blocks.tail, blockPayload b ≠ []
  bound : ∀ b ∈ blocks, b.length ≤ cfg.maxPlaintextBlockSize
  size : ∀ b ∈ blocks, (blockHdr b).blockSize + 2 = b.length

section
variable (k : Nat) (first : Bool) (full : List Buf) (last : Buf)

theorem closedSegments_cons (p : Buf) :
    closedSegments (streamIdAt k) first (p :: full) last =
      closedBlock (flagged (streamIdAt k) first) p ::
        closedSegments (streamIdAt k) false full last := by
  simp [closedSegments, segments]

theorem length_segments (id : UInt8) : (segments id first full).length = full.length := by
  induction full generalizing first with
  | nil => rfl
  | cons p full ih => simp [segments, ih]

theorem closedSegments_map_payload :
    (closedSegments (streamIdAt k) first full last).map blockPayload = full++[last] := by
  simp [closedSegments, segments_map_payload]

theorem closedSegments_closedBlock :
    ∀ b ∈ closedSegments (streamIdAt k) first full last,
      ∃ byte, b = closedBlock byte (blockPayload b) := by
  induction full generalizing first with
  | nil =>
    intro b hb
    rw [List.mem_singleton.mp hb]
    exact ⟨_, rfl⟩
  | cons p full ih =>
    intro b hb
    rw [closedSegments_cons] at hb
    cases List.mem_cons.mp hb with
    | inl he =>
      rw [he]
      exact ⟨_, rfl⟩
    | inr ht => exact ih false b ht

theorem closedSegments_flags (i : Nat) (b : Buf)
    (h : (closedSegments (streamIdAt k) first full last)[i]? = some b) :
    (blockHdr b).isFirst = (first && decide (i = 0)) ∧
    (blockHdr b).isLast = decide (i = full.length) := by
  induction full generalizing first i with
  | nil =>
    cases i with
    | zero =>
      have hb : closedBlock (flagged (streamIdAt k) first ||| if true then lastDataMask else 0)
          last = b := by simpa [closedSegments, segments] using h
      rw [← hb, blockHdr_stream]
      simp
    | succ i => simp [closedSegments, segments] at h
  | cons p full ih =>
    rw [closedSegments_cons] at h
    cases i with
    | zero =>
      have hb : closedBlock (flagged (streamIdAt k) first) p = b := by simpa using h
      rw [← hb, blockHdr_open]
      simp
    | succ i =>
      have hi := ih false i (by simpa using h)
      simpa using hi

theorem closedSegments_segmented {cfg : Config} {content : Buf}
    (hcut : Cut cfg.maxBlockPayloadSize full last content) :
    Segmented cfg (closedSegments (streamIdAt k) true full last) content ↔
      ∀ q ∈ full++[last], q.length ≤ 65534 := by
  have hmap := closedSegments_map_payload k true full last
  have hform := closedSegments_closedBlock k true full last
  have hmem : ∀ b ∈ closedSegments (streamIdAt k) true full last, blockPayload b ∈ full++[last] := by
    intro b hb
    rw [← hmap]
    exact List.mem_map_of_mem hb
  have hsize : ∀ b ∈ closedSegments (streamIdAt k) true full last,
      ((blockHdr b).blockSize + 2 = b.length ↔ (blockPayload b).length ≤ 65534) := by
    intro b hb
    obtain ⟨byte, he⟩ := hform b hb
    generalize blockPayload b = q at he ⊢
    rw [he, blockHdr_closedBlock, length_closedBlock]
    simp only
    omega
  constructor
  · intro h q hq
    rw [← hmap] at hq
    obtain ⟨b, hb, rfl⟩ := List.mem_map.mp hq
    exact (hsize b hb).mp (h.size b hb)
  · intro hle
    have hlen : (closedSegments (streamIdAt k) true full last).length = full.length + 1 := by
      simp [closedSegments, length_segments]
    refine ⟨?_, ?_, ?_, ?_, ?_, ?_, fun b hb => (hsize b hb).mpr (hle _ (hmem b hb))⟩
    · rw [List.flatMap_def, hmap, List.flatten_append, List.flatten_singleton, hcut.flatten]
    · intro i b hb
      rw [(closedSegments_flags k true full last i b hb).1]
      simp
    · intro i b hb
      rw [(closedSegments_flags k true full last i b hb).2, hlen]
      simp
    · intro b hb
      rw [closedSegments, List.dropLast_concat] at hb
      obtain ⟨byte, he⟩ := hform b (List.mem_append_left _ hb)
      have hin : blockPayload b ∈ full := by
        have hmap' := segments_map_payload (streamIdAt k) true full
        rw [← hmap']
        exact List.mem_map_of_mem hb
      rw [he, length_closedBlock, hcut.full_length _ hin, Config.maxPlaintextBlockSize]
    · intro b hb
      have htail : blockPayload b ∈ (full++[last]).tail := by
        rw [← hmap, ← List.map_tail]
        exact List.mem_map_of_mem hb
      cases full with
      | nil => simp at htail
      | cons p full =>
        cases List.mem_append.mp htail with
        | inl hin =>
          apply List.ne_nil_of_length_pos
          rw [hcut.full_length _ (List.mem_cons_of_mem _ hin)]
          exact cfg.maxBlockPayloadSize_pos
        | inr hin =>
          rw [List.mem_singleton.mp hin]
          exact hcut.last_ne_nil (by simp)
    · intro b hb
      obtain ⟨byte, he⟩ := hform b hb
      have hle' := hcut.length_le _ (hmem b hb)
      rw [he, length_closedBlock, Config.maxPlaintextBlockSize]
      omega

end

section
variable {cfg : Config} {s : Writers} {h : Nat} {header last : Buf} {tr : List WritersEvent}
  {full : List Buf}

/-- Closing a stream gives its last block away if it is still valid and its byte count is
not zero. -/
theorem streamClose_enqueued {id : UInt8} {first : Bool} {bytes : Nat} {sid : UInt32}
    (hs : s.streams.live.lookup h = some ⟨id, openBlock (flagged id first) last, bytes, sid⟩)
    (hlast : last.length ≤ cfg.maxBlockPayloadSize) :
    (writersStep cfg s (.streamClose (some h))).2.enqueued =
      if sid = s.sessionId ∧ bytes ≠ 0 then [closedBlock (flagged id first ||| lastDataMask) last]
      else [] := by
  have hfinish : blockFinishStream cfg (openBlock (flagged id first) last) id true =
      closedBlock (flagged id first ||| lastDataMask) last := blockFinishStream_openBlock hlast id true
  simp only [writersStep, Writers.stream_some, hs, pouchStreamClose, pouchStreamIsValid, hfinish,
    Bool.and_eq_true, decide_eq_true_eq, Nat.pos_iff_ne_zero]

theorem streamLife_close {sid : UInt32} (hlife : StreamLife cfg h sid header tr s full last) :
    blocksOf h (tr++[event (writersStep cfg) s (.streamClose (some h))]) =
      if sid = s.sessionId ∧ (writtenTo h tr).length % 2^cfg.sizeBits ≠ 0 then
        closedSegments (streamIdAt h) true full last
      else segments (streamIdAt h) true full := by
  have htarget : (event (writersStep cfg) s (.streamClose (some h))).input.target = some h := rfl
  rw [blocksOf_snoc, hlife.blocks, if_pos htarget, event,
    streamClose_enqueued hlife.stream hlife.cut.last_length]
  split
  · rfl
  · rw [List.append_nil]

theorem streamRun_close (hrun : StreamRun cfg h header tr s full last) :
    blocksWithId (streamIdAt h) (tr++[event (writersStep cfg) s (.streamClose (some h))]) =
      if (writtenTo h tr).length % 2^cfg.sizeBits = 0 then segments (streamIdAt h) true full
      else closedSegments (streamIdAt h) true full last := by
  have hid : (blockHdr (closedBlock (flagged (streamIdAt h) full.isEmpty ||| lastDataMask)
      last)).streamId = streamIdAt h :=
    congrArg BlockHdr.streamId (blockHdr_stream h full.isEmpty true last)
  rw [blocksWithId_snoc, hrun.blocks, event, streamClose_enqueued hrun.stream hrun.cut.last_length]
  by_cases hz : (writtenTo h tr).length % 2^cfg.sizeBits = 0
  · simp [hz]
  · simp [hz, hid, closedSegments]

/-- All payloads are short enough for the size field exactly if blocks are small, or the
stream is a single short one. -/
theorem payloads_short_iff {content : Buf} (hcut : Cut cfg.maxBlockPayloadSize full last content) :
    (∀ q ∈ full++[last], q.length ≤ 65534) ↔
      cfg.maxBlockPayloadSize ≤ 32768 ∨ content.length ≤ 65534 := by
  have hlen := hcut.length
  constructor
  · intro h
    cases cfg.maxBlockPayloadSize_cases with
    | inl hle => exact Or.inl hle
    | inr hge =>
      right
      cases full with
      | cons p full =>
        have hp := h p (by simp)
        rw [hcut.full_length p (by simp)] at hp
        omega
      | nil =>
        have hl := h last (by simp)
        simp only [List.length_nil, Nat.zero_mul] at hlen
        omega
  · intro h q hq
    have hle : q.length ≤ cfg.maxBlockPayloadSize ∧ q.length ≤ content.length := by
      cases List.mem_append.mp hq with
      | inl hin =>
        have hone : 1*cfg.maxBlockPayloadSize ≤ full.length*cfg.maxBlockPayloadSize :=
          Nat.mul_le_mul_right _ (List.length_pos_of_mem hin)
        rw [hcut.full_length q hin]
        omega
      | inr hin =>
        have hlast := hcut.last_length
        rw [List.mem_singleton.mp hin]
        omega
    omega

theorem streamRun_segmented_iff (hrun : StreamRun cfg h header tr s full last)
    (hsome : writtenTo h tr ≠ []) :
    Segmented cfg
      (blocksWithId (streamIdAt h) (tr++[event (writersStep cfg) s (.streamClose (some h))]))
      (header++writtenTo h tr) ↔
    (writtenTo h tr).length % 2^cfg.sizeBits ≠ 0 ∧
      (cfg.maxBlockPayloadSize ≤ 32768 ∨ header.length + (writtenTo h tr).length ≤ 65534) := by
  rw [streamRun_close hrun]
  by_cases hz : (writtenTo h tr).length % 2^cfg.sizeBits = 0
  · rw [if_pos hz]
    refine iff_of_false ?_ (fun hc => hc.1 hz)
    intro hseg
    -- the data in the last block is missing
    have hcontent := hseg.content
    rw [List.flatMap_def, segments_map_payload, ← hrun.cut.flatten,
      List.self_eq_append_right] at hcontent
    have hflat := hrun.cut.flatten
    cases full with
    | cons p full => exact hrun.cut.last_ne_nil (by simp) hcontent
    | nil =>
      rw [hcontent] at hflat
      exact hsome (List.append_eq_nil_iff.mp hflat.symm).2
  · rw [if_neg hz, closedSegments_segmented h full last hrun.cut, payloads_short_iff hrun.cut,
      List.length_append]
    simp [hz]

end

theorem streamLife_opened {cfg : Config} {pre : List WritersOp} {path : CString}
    {contentType : UInt16} {malloc alloc : Bool} {h : Nat}
    (hopen : (writersStep cfg (writersFinal cfg .boot pre)
      (.streamOpen path contentType malloc alloc)).2.result = .opened (some h))
    (hfit : 3 + strlen path ≤ cfg.maxBlockPayloadSize) :
    StreamLife cfg h
      (writersFinal cfg .boot (pre++[.streamOpen path contentType malloc alloc])).sessionId
      (streamHeader contentType path) []
      (writersFinal cfg .boot (pre++[.streamOpen path contentType malloc alloc])) []
      (streamHeader contentType path) := by
  have hlen := length_streamHeader contentType path
  refine ⟨?_, ?_, rfl⟩
  · rw [writersFinal, final_snoc]
    cases pouchUplinkStreamOpen_cases (writersFinal cfg .boot pre).sessionId path contentType
        malloc alloc (writersFinal_streams cfg pre) with
    | inl hr =>
      obtain ⟨-, t, he, -⟩ := hr
      simp [writersStep, he] at hopen
    | inr hr =>
      obtain ⟨-, t, he, -, hlive⟩ := hr
      simp only [writersStep, he, WritersResult.opened.injEq, Option.some.injEq] at hopen
      simp only [writersStep, he, hlive, hopen, AList.lookup_insert]
      simp [openedStream, writtenTo, flagged]
  · simpa [writtenTo] using Cut.one (hlen.trans_le hfit)

/-- A stream that is opened, written to in any interleaving with other streams and entries,
and closed: the blocks that carry its id are its header and its data in full blocks,
exactly if its byte count has not wrapped to zero and no size field overflows. -/
theorem stream_segmented_iff (cfg : Config) (pre mid : List WritersOp) (path : CString)
    (contentType : UInt16) (malloc alloc : Bool) (h : Nat) (stream : PouchStream)
    (opened : Writers) (data : Buf)
    (hopen : (writersStep cfg (writersFinal cfg .boot pre)
      (.streamOpen path contentType malloc alloc)).2.result = .opened (some h))
    (hopened : opened =
      writersFinal cfg .boot (pre++[.streamOpen path contentType malloc alloc]))
    (hstream : opened.streams.live.lookup h = some stream)
    (hfits : ∀ op ∈ pre++[.streamOpen path contentType malloc alloc]++mid, op.PathFits cfg)
    (hclose : .streamClose (some h) ∉ mid) (hsession : .nextSession ∉ mid)
    (hids : ∀ u v, mid = u++v → IdsDistinct (writersFinal cfg opened u))
    (hdata : data = writtenTo h (trace (writersStep cfg) opened mid)) (hsome : data ≠ []) :
    Segmented cfg
      (blocksWithId stream.id (trace (writersStep cfg) opened (mid++[.streamClose (some h)])))
      (streamHeader contentType path++data) ↔
    data.length % 2^cfg.sizeBits ≠ 0 ∧
      (cfg.maxBlockPayloadSize ≤ 32768 ∨ 3 + strlen path + data.length ≤ 65534) := by
  have hok : WritersOk cfg opened := hopened ▸
    writersFinal_ok writersOk_boot fun op hop => hfits op (List.mem_append_left _ hop)
  have hstart := streamLife_opened hopen
    (hfits (.streamOpen path contentType malloc alloc) (by simp)).2
  rw [← hopened] at hstart
  obtain ⟨full, last, hrun⟩ := streamRun hok hstart mid
    (fun op hop => hfits op (List.mem_append_right _ hop)) hclose hsession fun u v hsplit _ => hids u v hsplit
  have hend := streamRun_segmented_iff hrun (hdata ▸ hsome)
  rw [length_streamHeader, ← hdata] at hend
  rw [(hok.ids.drawn h stream hstream).2, trace_append]
  exact hend

/-- While at most 31 ids have been drawn, the open streams have different ones. -/
theorem idsDistinct_of_draws {s : Writers} (hinv : StreamsInv s.streams)
    (h : s.streams.draws ≤ 31) : IdsDistinct s := by
  rw [idsDistinct_iff hinv]
  have hlt : ∀ k ∈ s.streams.live, k < 31 := by
    intro k hk
    obtain ⟨stream, hs⟩ := Option.isSome_iff_exists.mp (AList.lookup_isSome.mpr hk)
    have hdrawn := (hinv.drawn k stream hs).1
    omega
  intro i k hi hk hne hmod
  have hi' := hlt i hi
  have hk' := hlt k hk
  omega

theorem stream_segmented_two :
    Segmented smallConfig (blocksWithId 2 (trace (writersStep smallConfig)
      (writersFinal smallConfig .boot [openStream, openStream])
      ([.streamWrite (some 1) [1, 2, 3, 4, 5] (fun _ => true),
        .streamWrite (some 0) [6] (fun _ => true)]++[.streamClose (some 1)])))
      (streamHeader 0 pathA++[1, 2, 3, 4, 5]) := by
  refine (stream_segmented_iff smallConfig [openStream] _ pathA 0 true true 1
    (openedStream 0 pathA 0 1) _ [1, 2, 3, 4, 5] rfl rfl rfl ?_ ?_ ?_ ?_ rfl
    (by decide)).mpr (by decide)
  · simp [openStream, WritersOp.PathFits, strlen]
    decide
  · simp
  · simp
  · intro u v hv
    have hinv : StreamsInv (writersFinal smallConfig
        (writersFinal smallConfig .boot [openStream, openStream]) u).streams := by
      have hall := writersFinal_streams smallConfig ([openStream, openStream]++u)
      rwa [writersFinal, final_append] at hall
    apply idsDistinct_of_draws hinv
    cases u with
    | nil => decide
    | cons op u =>
      cases u with
      | nil =>
        cases hv
        decide
      | cons next u =>
        cases u with
        | nil =>
          cases hv
          decide
        | cons more u => simp at hv

theorem written_all {cfg : Config} {h : Nat} {header last : Buf} {tr : List WritersEvent}
    {s : Writers} {full : List Buf} (hlife : StreamLife cfg h s.sessionId header tr s full last)
    (data : Buf) :
    WritersEvent.written h
      (event (writersStep cfg) s (.streamWrite (some h) data fun _ => true)) = data := by
  obtain ⟨taken, more, last', htaken, hall, hwrite, -⟩ :=
    pouchStreamWrite_spec s.sessionId (fun _ => true) (streamIdAt h)
      ((writtenTo h tr).length % 2^cfg.sizeBits) full.isEmpty data hlife.cut.last_length
  have heq : taken = data := by
    cases hall with
    | inl he => exact he
    | inr hfail => obtain ⟨k, hk⟩ := hfail; cases hk
  simp only [WritersEvent.written, event, writersStep, Writers.stream_some, hlife.stream, hwrite,
    if_true]
  rw [← htaken, heq]

/-- With large blocks, one write of 65531 bytes or more is enough for a size field to
overflow. -/
theorem long_write_not_segmented {cfg : Config} (hmax : 65536 ≤ cfg.maxBlockPayloadSize) {data : Buf}
    (hdata : 65531 ≤ data.length) :
    ¬ Segmented cfg (blocksWithId 1 (trace (writersStep cfg) (writersFinal cfg .boot [openStream])
      [.streamWrite (some 0) data fun _ => true, .streamClose (some 0)]))
      (streamHeader 0 pathA++data) := by
  have hopen : (writersStep cfg (writersFinal cfg .boot []) openStream).2.result =
      .opened (some 0) := rfl
  have hpath : strlen pathA = 1 := rfl
  have hstart : StreamLife cfg 0 (writersFinal cfg .boot [openStream]).sessionId
      (streamHeader 0 pathA) [] (writersFinal cfg .boot [openStream]) [] (streamHeader 0 pathA) :=
    streamLife_opened hopen (by omega)
  have hok : WritersOk cfg (writersFinal cfg .boot [openStream]) := by
    apply writersFinal_ok writersOk_boot
    intro op hop
    obtain rfl := List.mem_singleton.mp hop
    exact ⟨by decide, by omega⟩
  have hdraws : (writersFinal cfg .boot [openStream]).streams.draws = 1 := rfl
  have hids : IdsDistinct (writersFinal cfg .boot [openStream]) :=
    idsDistinct_of_draws (writersFinal_streams _ _) (by omega)
  have hwritten := written_all hstart data
  generalize writersFinal cfg .boot [openStream] = opened at hstart hok hids hwritten ⊢
  have hfirst : ∀ u v, [.streamWrite (some 0) data fun _ => true] = u++v → v ≠ [] →
      IdsDistinct (writersFinal cfg opened u) := by
    intro u v hsplit hne
    cases u with
    | nil => exact hids
    | cons op u =>
      have hv : v = [] := by simp_all
      exact absurd hv hne
  obtain ⟨full, last, hrun⟩ := streamRun hok hstart [.streamWrite (some 0) data fun _ => true]
    (by simp [WritersOp.PathFits]) (by simp) (by simp) hfirst
  have hall : writtenTo 0 (trace (writersStep cfg) opened
      [.streamWrite (some 0) data fun _ => true]) = data := by
    rw [writtenTo, trace_cons, trace_nil, List.flatMap_singleton, hwritten]
  have hne : data ≠ [] := List.ne_nil_of_length_pos (by omega)
  have hseg := streamRun_segmented_iff hrun (by rwa [hall])
  rw [hall, length_streamHeader] at hseg
  intro h
  have hcond := (hseg.mp h).2
  omega

theorem stream_long_not_segmented :
    ¬ Segmented longConfig (blocksWithId 1 (trace (writersStep longConfig)
      (writersFinal longConfig .boot [openStream])
      [.streamWrite (some 0) (List.replicate 65531 0) fun _ => true, .streamClose (some 0)]))
      (streamHeader 0 pathA++List.replicate 65531 0) :=
  long_write_not_segmented (by decide) (List.length_replicate ▸ le_refl _)

end Pouch
