import PouchNode.StreamBlocks

/-! Many streams and the entries taking turns. Every block carries the id of the stream it
belongs to, and what others do in between leaves a stream as it is. -/
namespace Pouch
open Machine Chunks

abbrev WritersEvent := Event Writers WritersOp WritersOut

def WritersOp.PathFits (cfg : Config) : WritersOp → Prop
  | .streamOpen path _ _ _ => strlen path ≤ 255 ∧ 3 + strlen path ≤ cfg.maxBlockPayloadSize
  | _ => True

def WritersOp.HeaderFits (cfg : Config) : WritersOp → Prop
  | .streamOpen path _ _ _ => 3 + strlen path ≤ cfg.maxBlockPayloadSize
  | _ => True

theorem WritersOp.PathFits.headerFits {cfg : Config} {op : WritersOp} (h : op.PathFits cfg) :
    op.HeaderFits cfg := by
  cases op with
  | streamOpen path contentType malloc alloc => exact h.2
  | streamWrite handle data alloc => trivial
  | streamClose handle => trivial
  | entry op => trivial
  | nextSession => trivial

def WritersOp.target : WritersOp → Option Nat
  | .streamWrite handle _ _ => handle
  | .streamClose handle => handle
  | _ => none

structure WritersOk (cfg : Config) (s : Writers) : Prop where
  ids : StreamsInv s.streams
  streams : ∀ h stream, s.streams.live.lookup h = some stream → stream.Ok cfg
  entry : EntryShape s.entry

section
variable {cfg : Config} {s : Writers}

theorem segments_streamId (k : Nat) (first : Bool) (ps : List Buf) :
    ∀ b ∈ segments (streamIdAt k) first ps, (blockHdr b).streamId = streamIdAt k := by
  induction ps generalizing first with
  | nil => simp [segments]
  | cons p ps ih =>
    intro b hb
    cases List.mem_cons.mp hb with
    | inl he => rw [he, blockHdr_open]
    | inr ht => exact ih false b ht

theorem pouchStreamWrite_ok {k : Nat} {stream : PouchStream} (h : stream.Ok cfg)
    (hid : stream.id = streamIdAt k) (sessionId : UInt32) (alloc : Nat → Bool) (data : Buf) :
    (pouchStreamWrite cfg sessionId alloc stream data).2.1.Ok cfg ∧
    ∀ b ∈ (pouchStreamWrite cfg sessionId alloc stream data).2.2,
      (blockHdr b).streamId = streamIdAt k := by
  by_cases hv : stream.sessionId = sessionId
  · obtain ⟨id, buf, bytes, sid⟩ := stream
    obtain ⟨first, p, hbuf, hp⟩ := h
    simp only at hid hv hbuf
    subst hid hv hbuf
    obtain ⟨taken, full, last, -, -, he, hcut⟩ :=
      pouchStreamWrite_spec sid alloc (streamIdAt k) bytes first data hp
    rw [he]
    exact ⟨⟨_, last, rfl, hcut.last_length⟩, segments_streamId k first full⟩
  · simp only [pouchStreamWrite, pouchStreamIsValid, hv, decide_false, Bool.not_false, if_true]
    exact ⟨h, by simp⟩

theorem pouchStreamClose_streamId {k : Nat} {stream : PouchStream} (h : stream.Ok cfg)
    (hid : stream.id = streamIdAt k) (sessionId : UInt32) :
    ∀ b ∈ pouchStreamClose cfg sessionId stream, (blockHdr b).streamId = streamIdAt k := by
  intro b hb
  obtain ⟨first, p, hbuf, hp⟩ := h
  rw [pouchStreamClose, hbuf, hid, blockFinishStream_openBlock hp] at hb
  split at hb
  · rw [List.mem_singleton.mp hb, blockHdr_stream k first true]
  · cases hb

theorem length_streamHeader (contentType : UInt16) (path : CString) :
    (streamHeader contentType path).length = 3 + strlen path := by
  simp [streamHeader, strlen]
  omega

/-- Every operation keeps the writers in order, and every block it gives away carries the
id of the stream it works on, or 0. -/
theorem writersStep_ok (h : WritersOk cfg s) (op : WritersOp)
    (hop : op.Opens s → op.HeaderFits cfg) :
    WritersOk cfg (writersStep cfg s op).1 ∧
    ∀ b ∈ (writersStep cfg s op).2.enqueued, (blockHdr b).streamId = 0 ∨
      ∃ k ∈ s.streams.live, op.target = some k ∧ (blockHdr b).streamId = streamIdAt k := by
  have hids := (writersStep_streams cfg op h.ids).1
  cases op with
  | streamOpen path contentType malloc alloc =>
    cases pouchUplinkStreamOpen_cases s.sessionId path contentType malloc alloc h.ids with
    | inl hr =>
      obtain ⟨-, t, he, hinv, hlive⟩ := hr
      simp only [writersStep, he]
      refine ⟨⟨hinv, ?_, h.entry⟩, by simp⟩
      rw [hlive]
      exact h.streams
    | inr hr =>
      obtain ⟨hopens, t, he, hinv, hlive⟩ := hr
      simp only [writersStep, he]
      refine ⟨⟨hinv, ?_, h.entry⟩, by simp⟩
      have hnew : (openedStream s.sessionId path contentType s.streams.draws).Ok cfg :=
        ⟨true, streamHeader contentType path, rfl,
          (length_streamHeader contentType path).trans_le (hop hopens)⟩
      rw [hlive]
      exact forall_lookup_insert hnew h.streams
  | streamWrite handle data alloc =>
    cases streamWrite_cases cfg s handle data alloc with
    | inl hnone =>
      rw [hnone]
      exact ⟨h, by simp⟩
    | inr hopen =>
      obtain ⟨i, stream, rfl, hi, he⟩ := hopen
      have hmem : i ∈ s.streams.live := AList.lookup_isSome.mp (by simp [hi])
      obtain ⟨hok, hblocks⟩ := pouchStreamWrite_ok (h.streams i stream hi)
        (h.ids.drawn i stream hi).2 s.sessionId alloc data
      rw [he] at hids ⊢
      exact ⟨⟨hids, forall_lookup_insert hok h.streams, h.entry⟩,
        fun b hb => Or.inr ⟨i, hmem, rfl, hblocks b hb⟩⟩
  | streamClose handle =>
    cases streamClose_cases cfg s handle with
    | inl hnone =>
      rw [hnone]
      exact ⟨h, by simp⟩
    | inr hopen =>
      obtain ⟨i, stream, rfl, hi, he⟩ := hopen
      have hmem : i ∈ s.streams.live := AList.lookup_isSome.mp (by simp [hi])
      have hblocks := pouchStreamClose_streamId (h.streams i stream hi)
        (h.ids.drawn i stream hi).2 s.sessionId
      rw [he] at hids ⊢
      exact ⟨⟨hids, forall_lookup_erase h.streams, h.entry⟩,
        fun b hb => Or.inr ⟨i, hmem, rfl, hblocks b hb⟩⟩
  | entry op =>
    obtain ⟨hshape, hzero⟩ := entryStep_shape cfg h.entry op
    exact ⟨⟨h.ids, h.streams, hshape⟩, fun b hb => Or.inl (hzero b hb)⟩
  | nextSession => exact ⟨⟨h.ids, h.streams, h.entry⟩, by simp [writersStep]⟩

theorem writersFinal_ok {ops : List WritersOp} (h : WritersOk cfg s)
    (hops : ∀ op ∈ ops, op.PathFits cfg) : WritersOk cfg (writersFinal cfg s ops) := by
  induction ops generalizing s with
  | nil => exact h
  | cons op ops ih =>
    exact ih (writersStep_ok h op fun _ => (hops op (by simp)).headerFits).1 fun o ho => hops o (by simp [ho])

theorem writersOk_boot : WritersOk cfg .boot := by
  refine ⟨streamsInv_boot, ?_, EntryShape.none⟩
  intro h stream hs
  simp [Writers.boot, Streams.boot] at hs

end

def WritersEvent.written (h : Nat) (e : WritersEvent) : Buf :=
  match e.input, e.output.result with
  | .streamWrite (some k) data _, .written n => if k = h then data.take n else []
  | _, _ => []

def writtenTo (h : Nat) (tr : List WritersEvent) : Buf := tr.flatMap fun e => e.written h
def blocksWithId (id : UInt8) (tr : List WritersEvent) : List Buf :=
  (tr.flatMap fun e => e.output.enqueued).filter fun b => decide ((blockHdr b).streamId = id)

def blocksOf (h : Nat) (tr : List WritersEvent) : List Buf :=
  tr.flatMap fun e => if e.input.target = some h then e.output.enqueued else []

@[simp] theorem blocksOf_snoc (h : Nat) (tr : List WritersEvent) (e : WritersEvent) :
    blocksOf h (tr++[e]) =
      blocksOf h tr++if e.input.target = some h then e.output.enqueued else [] := by
  simp [blocksOf]

@[simp] theorem writtenTo_snoc (h : Nat) (tr : List WritersEvent) (e : WritersEvent) :
    writtenTo h (tr++[e]) = writtenTo h tr++e.written h := by
  simp [writtenTo]

@[simp] theorem blocksWithId_snoc (id : UInt8) (tr : List WritersEvent) (e : WritersEvent) :
    blocksWithId id (tr++[e]) = blocksWithId id tr++
      e.output.enqueued.filter fun b => decide ((blockHdr b).streamId = id) := by
  simp [blocksWithId]

structure StreamLife (cfg : Config) (h : Nat) (sid : UInt32) (header : Buf)
    (tr : List WritersEvent) (s : Writers) (full : List Buf) (last : Buf) : Prop where
  stream : s.streams.live.lookup h = some ⟨streamIdAt h,
    openBlock (flagged (streamIdAt h) full.isEmpty) last,
    (writtenTo h tr).length % 2^cfg.sizeBits, sid⟩
  cut : Cut cfg.maxBlockPayloadSize full last (header++writtenTo h tr)
  blocks : blocksOf h tr = segments (streamIdAt h) true full

structure StreamRun (cfg : Config) (h : Nat) (header : Buf) (tr : List WritersEvent) (s : Writers)
    (full : List Buf) (last : Buf) : Prop where
  stream : s.streams.live.lookup h = some ⟨streamIdAt h,
    openBlock (flagged (streamIdAt h) full.isEmpty) last,
    (writtenTo h tr).length % 2^cfg.sizeBits, s.sessionId⟩
  cut : Cut cfg.maxBlockPayloadSize full last (header++writtenTo h tr)
  blocks : blocksWithId (streamIdAt h) tr = segments (streamIdAt h) true full

section
variable {cfg : Config} {s : Writers} {h : Nat}

theorem filter_streamId (id : UInt8) (blocks : List Buf)
    (hall : ∀ b ∈ blocks, (blockHdr b).streamId = id) :
    blocks.filter (fun b => decide ((blockHdr b).streamId = id)) = blocks := by
  apply List.filter_eq_self.mpr
  intro b hb
  exact decide_eq_true (hall b hb)

theorem writersStep_sessionId (op : WritersOp) (hop : op ≠ .nextSession) :
    (writersStep cfg s op).1.sessionId = s.sessionId := by
  cases op with
  | streamOpen path contentType malloc alloc => rfl
  | streamWrite handle data alloc =>
    simp only [writersStep]
    split <;> rfl
  | streamClose handle =>
    simp only [writersStep]
    split <;> rfl
  | entry op => rfl
  | nextSession => exact absurd rfl hop

theorem written_other (cfg : Config) (s : Writers) (op : WritersOp) (htarget : op.target ≠ some h) :
    WritersEvent.written h (event (writersStep cfg) s op) = [] := by
  cases op with
  | streamWrite handle data alloc =>
    cases handle with
    | none => rfl
    | some k =>
      have hne : k ≠ h := fun he => htarget (by simp [WritersOp.target, he])
      cases hres : (writersStep cfg s (.streamWrite (some k) data alloc)).2.result <;>
        simp [WritersEvent.written, event, hres, hne]
  | streamOpen path contentType malloc alloc => rfl
  | streamClose handle => rfl
  | entry op => rfl
  | nextSession => rfl

theorem writersStep_elsewhere (cfg : Config) (hinv : StreamsInv s.streams)
    (hdrawn : h < s.streams.draws) (op : WritersOp) (htarget : op.target ≠ some h) :
    (writersStep cfg s op).1.streams.live.lookup h = s.streams.live.lookup h := by
  cases op with
  | streamOpen path contentType malloc alloc =>
    cases pouchUplinkStreamOpen_cases s.sessionId path contentType malloc alloc hinv with
    | inl hr =>
      obtain ⟨-, t, he, -, ht⟩ := hr
      simp only [writersStep, he, ht]
    | inr hr =>
      obtain ⟨-, t, he, -, ht⟩ := hr
      simp only [writersStep, he, ht]
      rw [AList.lookup_insert_ne hdrawn.ne]
  | streamWrite handle data alloc =>
    cases streamWrite_cases cfg s handle data alloc with
    | inl hnone => rw [hnone]
    | inr hopen =>
      obtain ⟨i, stream, rfl, -, he⟩ := hopen
      have hne : h ≠ i := fun hi => htarget (by simp [WritersOp.target, hi])
      rw [he]
      exact AList.lookup_insert_ne hne
  | streamClose handle =>
    cases streamClose_cases cfg s handle with
    | inl hnone => rw [hnone]
    | inr hopen =>
      obtain ⟨i, stream, rfl, -, he⟩ := hopen
      have hne : h ≠ i := fun hi => htarget (by simp [WritersOp.target, hi])
      rw [he]
      exact AList.lookup_erase_ne hne
  | entry op => rfl
  | nextSession => rfl

theorem writersStep_blocks (hok : WritersOk cfg s) (hids : IdsDistinct s)
    (hlive : h ∈ s.streams.live) (op : WritersOp) (hop : op.PathFits cfg) :
    (writersStep cfg s op).2.enqueued.filter
      (fun b => decide ((blockHdr b).streamId = streamIdAt h)) =
    if op.target = some h then (writersStep cfg s op).2.enqueued else [] := by
  have hblocks := (writersStep_ok hok op fun _ => hop.headerFits).2
  by_cases htarget : op.target = some h
  · rw [if_pos htarget]
    apply filter_streamId
    intro b hb
    cases op with
    | streamOpen path contentType malloc alloc => cases htarget
    | entry op => cases htarget
    | nextSession => cases htarget
    | streamWrite handle data alloc =>
      have hh : handle = some h := htarget
      subst hh
      obtain ⟨stream, hs⟩ := Option.isSome_iff_exists.mp (AList.lookup_isSome.mpr hlive)
      simp only [writersStep, Writers.stream_some, hs] at hb
      exact (pouchStreamWrite_ok (hok.streams h stream hs) (hok.ids.drawn h stream hs).2 _ _ _).2 b hb
    | streamClose handle =>
      have hh : handle = some h := htarget
      subst hh
      obtain ⟨stream, hs⟩ := Option.isSome_iff_exists.mp (AList.lookup_isSome.mpr hlive)
      simp only [writersStep, Writers.stream_some, hs] at hb
      exact pouchStreamClose_streamId (hok.streams h stream hs) (hok.ids.drawn h stream hs).2 _ b hb
  · rw [if_neg htarget]
    apply List.filter_eq_nil_iff.mpr
    intro b hb
    simp only [decide_eq_true_eq]
    cases hblocks b hb with
    | inl hzero =>
      rw [hzero]
      exact (streamIdAt_ne_zero h).symm
    | inr hown =>
      obtain ⟨k, hk, ht, hid⟩ := hown
      have hne : k ≠ h := fun he => htarget (he ▸ ht)
      rw [hid, streamIdAt_eq_iff]
      exact (idsDistinct_iff hok.ids).mp hids k h hk hlive hne

section
variable {sid : UInt32} {header last : Buf} {tr : List WritersEvent} {full : List Buf}

theorem StreamLife.unchanged {t : Writers} {e : WritersEvent}
    (hlife : StreamLife cfg h sid header tr s full last)
    (hlookup : t.streams.live.lookup h = s.streams.live.lookup h)
    (hwritten : e.written h = []) (hblocks : e.input.target = some h → e.output.enqueued = []) :
    StreamLife cfg h sid header (tr++[e]) t full last := by
  have hsame : writtenTo h (tr++[e]) = writtenTo h tr := by
    rw [writtenTo_snoc, hwritten, List.append_nil]
  constructor
  · rw [hlookup, hsame]
    exact hlife.stream
  · rw [hsame]
    exact hlife.cut
  · rw [blocksOf_snoc, hlife.blocks]
    split
    next htarget => rw [hblocks htarget, List.append_nil]
    next => rw [List.append_nil]

theorem StreamLife.write (hlife : StreamLife cfg h s.sessionId header tr s full last) (data : Buf)
    (alloc : Nat → Bool) :
    ∃ full last, StreamLife cfg h s.sessionId header
      (tr++[event (writersStep cfg) s (.streamWrite (some h) data alloc)])
      (writersStep cfg s (.streamWrite (some h) data alloc)).1 full last := by
  obtain ⟨taken, more, last', htaken, -, hwrite, hcut⟩ :=
    pouchStreamWrite_spec s.sessionId alloc (streamIdAt h)
      ((writtenTo h tr).length % 2^cfg.sizeBits) full.isEmpty data hlife.cut.last_length
  have hstep : writersStep cfg s (.streamWrite (some h) data alloc) =
      ({ s with streams := { s.streams with live := s.streams.live.insert h ⟨streamIdAt h,
        openBlock (flagged (streamIdAt h) (full.isEmpty && more.isEmpty)) last',
        ((writtenTo h tr).length % 2^cfg.sizeBits + taken.length) % 2^cfg.sizeBits,
        s.sessionId⟩ } },
      ⟨.written taken.length, segments (streamIdAt h) full.isEmpty more⟩) := by
    simp only [writersStep, Writers.stream_some, hlife.stream, hwrite]
  have hwritten : WritersEvent.written h
      (event (writersStep cfg) s (.streamWrite (some h) data alloc)) = taken := by
    simp only [WritersEvent.written, event, hstep, if_true]
    exact htaken.symm
  have hempty : (full++more).isEmpty = (full.isEmpty && more.isEmpty) := by
    cases full <;> simp
  refine ⟨full++more, last', ⟨?_, ?_, ?_⟩⟩
  · rw [hstep, writtenTo_snoc, hwritten, List.length_append, Nat.mod_add_mod, hempty]
    simp [AList.lookup_insert]
  · rw [writtenTo_snoc, hwritten, ← List.append_assoc]
    exact hlife.cut.append hcut
  · rw [blocksOf_snoc, hlife.blocks, segments_append, Bool.true_and]
    simp only [event, hstep, WritersOp.target, if_true]

/-- One operation in the life of a stream, whatever the other streams are called. -/
theorem streamLife_step (hlife : StreamLife cfg h sid header tr s full last)
    (hinv : StreamsInv s.streams) (op : WritersOp) (hclose : op ≠ .streamClose (some h)) :
    ∃ full last, StreamLife cfg h sid header (tr++[event (writersStep cfg) s op])
      (writersStep cfg s op).1 full last := by
  by_cases htarget : op.target = some h
  · -- a write to the stream itself
    cases op with
    | streamClose handle => exact absurd (by simpa [WritersOp.target] using htarget) hclose
    | streamOpen path contentType malloc alloc => cases htarget
    | entry op => cases htarget
    | nextSession => cases htarget
    | streamWrite handle data alloc =>
      have hh : handle = some h := htarget
      subst hh
      by_cases hvalid : sid = s.sessionId
      · subst hvalid
        exact hlife.write data alloc
      · -- the stream belongs to an earlier session
        have hstep : writersStep cfg s (.streamWrite (some h) data alloc) =
            ({ s with streams := { s.streams with live := s.streams.live.insert h ⟨streamIdAt h,
              openBlock (flagged (streamIdAt h) full.isEmpty) last,
              (writtenTo h tr).length % 2^cfg.sizeBits, sid⟩ } }, ⟨.written 0, []⟩) := by
          simp [writersStep, Writers.stream_some, hlife.stream, pouchStreamWrite,
            pouchStreamIsValid, hvalid]
        refine ⟨full, last, hlife.unchanged ?_ ?_ ?_⟩
        · rw [hstep, hlife.stream]
          exact AList.lookup_insert _
        · simp [WritersEvent.written, event, hstep]
        · simp [event, hstep]
  · exact ⟨full, last, hlife.unchanged
      (writersStep_elsewhere cfg hinv (hinv.drawn h _ hlife.stream).1 op htarget)
      (written_other cfg s op htarget) fun he => absurd he htarget⟩

end

/-- The life of a stream up to its closing. -/
theorem streamLife {sid : UInt32} {header : Buf} (hinv : StreamsInv s.streams)
    (hstart : StreamLife cfg h sid header [] s [] header) (ops : List WritersOp)
    (hclose : .streamClose (some h) ∉ ops) :
    ∃ full last, StreamLife cfg h sid header (trace (writersStep cfg) s ops)
      (writersFinal cfg s ops) full last := by
  have hall := trace_invariant (writersStep cfg) (A := fun op => op ≠ .streamClose (some h))
    (P := fun tr t => StreamsInv t.streams ∧ ∃ full last, StreamLife cfg h sid header tr t full last)
    s ⟨hinv, [], header, hstart⟩ ?_ ops fun op hop he => hclose (he ▸ hop)
  · exact hall.2
  · intro tr t op hop hlife
    obtain ⟨ht, full, last, hl⟩ := hlife
    exact ⟨(writersStep_streams cfg op ht).1, streamLife_step hl ht op hop⟩

/-- While ids are distinct, the id in the header tells whose block it is. -/
theorem blocksWithId_eq (hok : WritersOk cfg s) (ops : List WritersOp)
    (hops : ∀ op ∈ ops, op.PathFits cfg)
    (hlive : ∀ u v, ops = u++v → v ≠ [] → h ∈ (writersFinal cfg s u).streams.live)
    (hids : ∀ u v, ops = u++v → v ≠ [] → IdsDistinct (writersFinal cfg s u)) :
    blocksWithId (streamIdAt h) (trace (writersStep cfg) s ops) =
      blocksOf h (trace (writersStep cfg) s ops) := by
  induction ops using List.reverseRecOn with
  | nil => rfl
  | append_singleton u op ih =>
    have hu : ∀ o ∈ u, o.PathFits cfg := fun o ho => hops o (List.mem_append_left _ ho)
    have hstep := writersStep_blocks (writersFinal_ok hok hu) (hids u [op] rfl (by simp))
      (hlive u [op] rfl (by simp)) op (hops op (by simp))
    have hprev := ih hu (fun v w hv hw => hlive v (w++[op]) (by simp [hv]) (by simp))
      (fun v w hv hw => hids v (w++[op]) (by simp [hv]) (by simp))
    rw [trace_append, trace_cons, trace_nil, blocksWithId_snoc, blocksOf_snoc, hprev]
    exact congrArg (_++·) hstep

theorem writersFinal_sessionId (ops : List WritersOp) (hsession : .nextSession ∉ ops) :
    (writersFinal cfg s ops).sessionId = s.sessionId := by
  induction ops generalizing s with
  | nil => rfl
  | cons op ops ih =>
    have hop : op ≠ .nextSession := fun he => hsession (by simp [he])
    exact (ih fun hm => hsession (List.mem_cons_of_mem _ hm)).trans (writersStep_sessionId op hop)

/-- The life of a stream within one session, among streams with other ids. -/
theorem streamRun {header : Buf} (hok : WritersOk cfg s)
    (hstart : StreamLife cfg h s.sessionId header [] s [] header) (ops : List WritersOp)
    (hops : ∀ op ∈ ops, op.PathFits cfg) (hclose : .streamClose (some h) ∉ ops)
    (hsession : .nextSession ∉ ops)
    (hids : ∀ u v, ops = u++v → v ≠ [] → IdsDistinct (writersFinal cfg s u)) :
    ∃ full last, StreamRun cfg h header (trace (writersStep cfg) s ops)
      (writersFinal cfg s ops) full last := by
  obtain ⟨full, last, hlife⟩ := streamLife hok.ids hstart ops hclose
  have hlive : ∀ u v, ops = u++v → v ≠ [] → h ∈ (writersFinal cfg s u).streams.live := by
    intro u v hsplit _
    obtain ⟨full, last, hu⟩ := streamLife hok.ids hstart u fun hm =>
      hclose (hsplit ▸ List.mem_append_left _ hm)
    exact AList.lookup_isSome.mp (by simp [hu.stream])
  refine ⟨full, last, ⟨?_, hlife.cut, ?_⟩⟩
  · rw [writersFinal_sessionId ops hsession]
    exact hlife.stream
  · exact (blocksWithId_eq hok ops hops hlive hids).trans hlife.blocks

end

end Pouch
