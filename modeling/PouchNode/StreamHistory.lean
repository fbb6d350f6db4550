import PouchNode.WritersRun

/-! All streams of a run, one after the other and side by side. Each has its own past, from the
calls that were made on it; and the blocks with one id are those of the streams that have had the
id, in the order in which these were opened. -/
namespace Pouch
open Machine Chunks

structure StreamLog where
  path : CString
  contentType : UInt16
  sessionId : UInt32
  data : Buf
  closedValid : Bool
  deriving DecidableEq

def StreamLog.write (bytes : Buf) (l : StreamLog) : StreamLog := { l with data := l.data++bytes }

def StreamLog.close (sessionId : UInt32) (l : StreamLog) : StreamLog :=
  { l with closedValid := decide (l.sessionId = sessionId) }

/- Closed while it was valid, and its byte count, a size_t, was not zero. -/
def StreamLog.Complete (cfg : Config) (l : StreamLog) : Prop :=
  l.closedValid = true ∧ l.data.length % 2^cfg.sizeBits ≠ 0

instance (cfg : Config) (l : StreamLog) : Decidable (l.Complete cfg) :=
  inferInstanceAs (Decidable (_ ∧ _))

def StreamLog.next (h : Nat) (log : Option StreamLog) (e : WritersEvent) :
    Option StreamLog :=
  match e.input, e.output.result with
  | .streamOpen path contentType _ _, .opened (some k) =>
    if k = h then some ⟨path, contentType, e.state.sessionId, [], false⟩ else log
  | .streamWrite _ _ _, _ => log.map (StreamLog.write (e.written h))
  | .streamClose (some k), .ret .ok =>
    if k = h then log.map (StreamLog.close e.state.sessionId) else log
  | _, _ => log

def streamLog (h : Nat) (tr : List WritersEvent) : Option StreamLog :=
  tr.foldl (StreamLog.next h) none

@[simp] theorem streamLog_snoc (h : Nat) (tr : List WritersEvent) (e : WritersEvent) :
    streamLog h (tr++[e]) = StreamLog.next h (streamLog h tr) e := by
  rw [streamLog, List.foldl_append]
  rfl

def StreamLog.header (l : StreamLog) : Buf := streamHeader l.contentType l.path

def StreamLog.Fits (cfg : Config) (l : StreamLog) : Prop :=
  strlen l.path ≤ 255 ∧ 3 + strlen l.path ≤ cfg.maxBlockPayloadSize

inductive StreamPast (cfg : Config) (h : Nat) (tr : List WritersEvent) (s : Writers) :
    Option StreamLog → Prop where
  | unopened (hlive : h ∉ s.streams.live) (hblocks : blocksOf h tr = [])
      (hwritten : writtenTo h tr = []) : StreamPast cfg h tr s none
  | opened (l : StreamLog) (hfits : l.Fits cfg) (hclosed : l.closedValid = false)
      (hdata : writtenTo h tr = l.data) {full : List Buf} {last : Buf}
      (hlife : StreamLife cfg h l.sessionId l.header tr s full last) :
      StreamPast cfg h tr s (some l)
  | closed (l : StreamLog) (hfits : l.Fits cfg) (hdrawn : h < s.streams.draws)
      (hlive : h ∉ s.streams.live) {full : List Buf} {last : Buf}
      (hcut : Cut cfg.maxBlockPayloadSize full last (l.header++l.data))
      (hblocks : blocksOf h tr = if l.Complete cfg then closedSegments (streamIdAt h) true full last
        else segments (streamIdAt h) true full) :
      StreamPast cfg h tr s (some l)

section
variable {cfg : Config} {s : Writers} {h : Nat} {tr : List WritersEvent}

theorem not_mem_live_iff : h ∉ s.streams.live ↔ s.streams.live.lookup h = none :=
  AList.lookup_eq_none.symm

theorem StreamPast.drawn {l : StreamLog} (hpast : StreamPast cfg h tr s (some l))
    (hinv : StreamsInv s.streams) : h < s.streams.draws := by
  cases hpast with
  | opened _ _ _ _ hlife => exact (hinv.drawn h _ hlife.stream).1
  | closed _ _ hdrawn _ _ _ => exact hdrawn

variable (cfg) in
theorem draws_le (op : WritersOp) : s.streams.draws ≤ (writersStep cfg s op).1.streams.draws := by
  cases op with
  | streamOpen path contentType malloc alloc =>
    simp only [writersStep, pouchUplinkStreamOpen]
    split
    · exact le_rfl
    · split
      · exact le_rfl
      · cases blockAllocStream alloc (newStreamId s.streams.streamId).1 true with
        | none => exact Nat.le_succ _
        | some b => exact Nat.le_succ _
  | streamWrite handle data alloc =>
    cases streamWrite_cases cfg s handle data alloc with
    | inl hnone => rw [hnone]
    | inr hopen =>
      obtain ⟨i, stream, -, -, he⟩ := hopen
      rw [he]
  | streamClose handle =>
    cases streamClose_cases cfg s handle with
    | inl hnone => rw [hnone]
    | inr hopen =>
      obtain ⟨i, stream, -, -, he⟩ := hopen
      rw [he]
  | entry op => exact le_rfl
  | nextSession => exact le_rfl

theorem StreamLog.next_write (log : Option StreamLog) (s : Writers) (handle : Option Nat)
    (data : Buf) (alloc : Nat → Bool) :
    StreamLog.next h log (event (writersStep cfg) s (.streamWrite handle data alloc)) =
      log.map (StreamLog.write (WritersEvent.written h
        (event (writersStep cfg) s (.streamWrite handle data alloc)))) := rfl

structure Aloof (cfg : Config) (h : Nat) (s : Writers) (op : WritersOp) : Prop where
  lookup : (writersStep cfg s op).1.streams.live.lookup h = s.streams.live.lookup h
  written : WritersEvent.written h (event (writersStep cfg) s op) = []
  blocks : op.target = some h → (writersStep cfg s op).2.enqueued = []
  log : ∀ log, StreamLog.next h log (event (writersStep cfg) s op) = log

theorem StreamPast.aloof {log : Option StreamLog} (hpast : StreamPast cfg h tr s log)
    {op : WritersOp} (haloof : Aloof cfg h s op) :
    StreamPast cfg h (tr++[event (writersStep cfg) s op]) (writersStep cfg s op).1
      (StreamLog.next h log (event (writersStep cfg) s op)) := by
  have hwritten : writtenTo h (tr++[event (writersStep cfg) s op]) = writtenTo h tr := by
    rw [writtenTo_snoc, haloof.written, List.append_nil]
  have hblocks : blocksOf h (tr++[event (writersStep cfg) s op]) = blocksOf h tr := by
    rw [blocksOf_snoc]
    by_cases htarget : op.target = some h
    · simp [event, haloof.blocks htarget]
    · simp [event, htarget]
  rw [haloof.log]
  cases hpast with
  | unopened hlive hnone hnothing =>
    refine .unopened ?_ (hblocks.trans hnone) (hwritten.trans hnothing)
    rw [not_mem_live_iff, haloof.lookup]
    exact not_mem_live_iff.mp hlive
  | opened l hfits hclosed hdata hlife =>
    exact .opened l hfits hclosed (hwritten.trans hdata)
      (hlife.unchanged haloof.lookup haloof.written haloof.blocks)
  | closed l hfits hdrawn hlive hcut hgiven =>
    refine .closed l hfits (hdrawn.trans_le (draws_le cfg op)) ?_ hcut (hblocks.trans hgiven)
    rw [not_mem_live_iff, haloof.lookup]
    exact not_mem_live_iff.mp hlive

def WritersOp.OpensAt (s : Writers) (h : Nat) (op : WritersOp) : Prop :=
  op.Opens s ∧ h = s.streams.draws

variable (cfg) in
theorem opened_iff (hinv : StreamsInv s.streams) (op : WritersOp) :
    (writersStep cfg s op).2.result = .opened (some h) ↔ op.OpensAt s h := by
  cases op with
  | streamOpen path contentType malloc alloc =>
    rw [WritersOp.OpensAt, WritersOp.Opens]
    cases pouchUplinkStreamOpen_cases s.sessionId path contentType malloc alloc hinv with
    | inl hr =>
      obtain ⟨hno, t, he, -⟩ := hr
      simp [writersStep, he, hno]
    | inr hr =>
      obtain ⟨hopens, t, he, -⟩ := hr
      simp [writersStep, he, hopens, eq_comm]
  | streamWrite handle data alloc =>
    cases streamWrite_cases cfg s handle data alloc with
    | inl hnone => simp [hnone, WritersOp.OpensAt, WritersOp.Opens]
    | inr hopen =>
      obtain ⟨i, stream, -, -, he⟩ := hopen
      simp [he, WritersOp.OpensAt, WritersOp.Opens]
  | streamClose handle =>
    cases streamClose_cases cfg s handle with
    | inl hnone => simp [hnone, WritersOp.OpensAt, WritersOp.Opens]
    | inr hopen =>
      obtain ⟨i, stream, -, -, he⟩ := hopen
      simp [he, WritersOp.OpensAt, WritersOp.Opens]
  | entry op => simp [writersStep, WritersOp.OpensAt, WritersOp.Opens]
  | nextSession => simp [writersStep, WritersOp.OpensAt, WritersOp.Opens]

theorem lookup_elsewhere (hinv : StreamsInv s.streams) {op : WritersOp} (hopens : ¬ op.OpensAt s h)
    (htarget : op.target ≠ some h) :
    (writersStep cfg s op).1.streams.live.lookup h = s.streams.live.lookup h := by
  by_cases hdrawn : h < s.streams.draws
  · exact writersStep_elsewhere cfg hinv hdrawn op htarget
  · have hdead : h ∉ s.streams.live := by
      intro hlive
      obtain ⟨stream, hs⟩ := Option.isSome_iff_exists.mp (AList.lookup_isSome.mpr hlive)
      exact hdrawn (hinv.drawn h stream hs).1
    rw [not_mem_live_iff.mp hdead, ← not_mem_live_iff]
    intro hlive
    rcases (writersStep_streams cfg op hinv).2 with ⟨hop, hlives⟩ | ⟨-, hlives⟩
    · rcases (hlives h).mp hlive with hdraws | hold
      · exact hopens ⟨hop, hdraws⟩
      · exact hdead hold
    · exact hdead (hlives h hlive)

/-- Operations on something else are aloof, -/
theorem aloof_elsewhere (hinv : StreamsInv s.streams) {op : WritersOp} (hopens : ¬ op.OpensAt s h)
    (htarget : op.target ≠ some h) : Aloof cfg h s op where
  lookup := lookup_elsewhere hinv hopens htarget
  written := written_other cfg s op htarget
  blocks he := absurd he htarget
  log log := by
    have hwritten := written_other cfg s op htarget
    have hresult := (opened_iff cfg hinv op).not.mpr hopens
    cases op with
    | streamOpen path contentType malloc alloc =>
      cases hr : (writersStep cfg s (.streamOpen path contentType malloc alloc)).2.result with
      | opened handle =>
        cases handle with
        | none => simp [StreamLog.next, event, hr]
        | some k =>
          have hk : k ≠ h := fun he => hresult (he ▸ hr)
          simp [StreamLog.next, event, hr, hk]
      | written n | ret ret | done => simp [StreamLog.next, event, hr]
    | streamWrite handle data alloc =>
      rw [StreamLog.next_write, hwritten]
      cases log <;> simp [StreamLog.write]
    | streamClose handle =>
      cases handle with
      | none => rfl
      | some k =>
        have hk : k ≠ h := fun he => htarget (congrArg some he)
        cases hr : (writersStep cfg s (.streamClose (some k))).2.result with
        | ret ret => cases ret <;> simp [StreamLog.next, event, hr, hk]
        | opened handle | written n | done => simp [StreamLog.next, event, hr]
    | entry op => rfl
    | nextSession => rfl

variable (cfg) in
/-- and so are operations on a stream that is not open. -/
theorem aloof_dead (hdead : h ∉ s.streams.live) {op : WritersOp} (htarget : op.target = some h) :
    Aloof cfg h s op := by
  have hnone := not_mem_live_iff.mp hdead
  cases op with
  | streamOpen path contentType malloc alloc => cases htarget
  | streamWrite handle data alloc =>
    obtain rfl : handle = some h := htarget
    have hstep : writersStep cfg s (.streamWrite (some h) data alloc) = (s, ⟨.written 0, []⟩) := by
      simp [writersStep, Writers.stream_some, hnone]
    have hwritten : WritersEvent.written h (event (writersStep cfg) s
        (.streamWrite (some h) data alloc)) = [] := by
      simp [WritersEvent.written, event, hstep]
    refine ⟨by rw [hstep], hwritten, fun _ => by rw [hstep], fun log => ?_⟩
    rw [StreamLog.next_write, hwritten]
    cases log <;> simp [StreamLog.write]
  | streamClose handle =>
    obtain rfl : handle = some h := htarget
    have hstep : writersStep cfg s (.streamClose (some h)) =
        (s, ⟨.ret (.err .einval), []⟩) := by
      simp [writersStep, Writers.stream_some, hnone]
    refine ⟨by rw [hstep], by simp [WritersEvent.written, event], fun _ => by rw [hstep],
      fun log => ?_⟩
    simp [StreamLog.next, event, hstep]
  | entry op => cases htarget
  | nextSession => cases htarget

theorem StreamPast.open {path : CString} {contentType : UInt16} {malloc alloc : Bool}
    {log : Option StreamLog} (hpast : StreamPast cfg h tr s log) (hinv : StreamsInv s.streams)
    (hop : (WritersOp.streamOpen path contentType malloc alloc).OpensAt s h)
    (hfits : (WritersOp.streamOpen path contentType malloc alloc).PathFits cfg) :
    StreamPast cfg h
      (tr++[event (writersStep cfg) s (.streamOpen path contentType malloc alloc)])
      (writersStep cfg s (.streamOpen path contentType malloc alloc)).1
      (StreamLog.next h log
        (event (writersStep cfg) s (.streamOpen path contentType malloc alloc))) := by
  obtain ⟨hopens, rfl⟩ := hop
  cases pouchUplinkStreamOpen_cases s.sessionId path contentType malloc alloc hinv with
  | inl hr => exact absurd hopens hr.1
  | inr hr =>
    obtain ⟨-, t, he, -, hlive⟩ := hr
    have hlog : StreamLog.next s.streams.draws log
        (event (writersStep cfg) s (.streamOpen path contentType malloc alloc)) =
          some ⟨path, contentType, s.sessionId, [], false⟩ := by
      simp [StreamLog.next, event, writersStep, he]
    cases hpast with
    | unopened hdead hblocks hwritten =>
      have hnothing : writtenTo s.streams.draws
          (tr++[event (writersStep cfg) s (.streamOpen path contentType malloc alloc)]) = [] := by
        rw [writtenTo_snoc, hwritten]
        simp [WritersEvent.written, event, writersStep, he]
      have hlife : StreamLife cfg s.streams.draws s.sessionId (streamHeader contentType path)
          (tr++[event (writersStep cfg) s (.streamOpen path contentType malloc alloc)])
          (writersStep cfg s (.streamOpen path contentType malloc alloc)).1 []
          (streamHeader contentType path) := by
        refine ⟨?_, ?_, ?_⟩
        · rw [hnothing]
          simp [writersStep, he, hlive, openedStream, flagged]
        · rw [hnothing]
          simpa using Cut.one ((length_streamHeader contentType path).trans_le hfits.2)
        · rw [blocksOf_snoc, hblocks]
          simp [event, WritersOp.target, segments]
      rw [hlog]
      exact .opened _ hfits rfl hnothing hlife
    | opened l _ _ _ hlife => exact absurd (hinv.drawn _ _ hlife.stream).1 (lt_irrefl _)
    | closed l _ hdrawn _ _ _ => exact absurd hdrawn (lt_irrefl _)

/-- A stream that is closed is complete if it was valid and its byte count not zero. -/
theorem StreamPast.close {l : StreamLog} (hfits : l.Fits cfg) (hdata : writtenTo h tr = l.data)
    {full : List Buf} {last : Buf} (hinv : StreamsInv s.streams)
    (hlife : StreamLife cfg h l.sessionId l.header tr s full last) :
    StreamPast cfg h (tr++[event (writersStep cfg) s (.streamClose (some h))])
      (writersStep cfg s (.streamClose (some h))).1
      (StreamLog.next h (some l) (event (writersStep cfg) s (.streamClose (some h)))) := by
  obtain ⟨stream, hs⟩ : ∃ stream, s.streams.live.lookup h = some stream := ⟨_, hlife.stream⟩
  have hstep : writersStep cfg s (.streamClose (some h)) = ({ s with streams :=
      { s.streams with
        openStreams := s.streams.openStreams - 1
        live := s.streams.live.erase h } }, ⟨.ret .ok, pouchStreamClose cfg s.sessionId stream⟩) := by
    simp only [writersStep, Writers.stream_some, hs]
  have hlog : StreamLog.next h (some l) (event (writersStep cfg) s (.streamClose (some h))) =
      some (l.close s.sessionId) := by
    simp [StreamLog.next, event, hstep]
  rw [hlog]
  have hcut : Cut cfg.maxBlockPayloadSize full last (l.header++l.data) := hdata ▸ hlife.cut
  refine .closed _ hfits ?_ ?_ hcut ?_
  · rw [hstep]
    exact (hinv.drawn h _ hlife.stream).1
  · rw [hstep]
    simp
  · rw [streamLife_close hlife, hdata]
    simp [StreamLog.close, StreamLog.Complete]

theorem StreamPast.step {log : Option StreamLog} (hpast : StreamPast cfg h tr s log)
    (hinv : StreamsInv s.streams) (op : WritersOp) (hop : op.PathFits cfg) :
    StreamPast cfg h (tr++[event (writersStep cfg) s op]) (writersStep cfg s op).1
      (StreamLog.next h log (event (writersStep cfg) s op)) := by
  by_cases hopens : op.OpensAt s h
  · cases op with
    | streamOpen path contentType malloc alloc => exact hpast.open hinv hopens hop
    | streamWrite handle data alloc => exact absurd hopens.1 id
    | streamClose handle => exact absurd hopens.1 id
    | entry op => exact absurd hopens.1 id
    | nextSession => exact absurd hopens.1 id
  by_cases htarget : op.target = some h
  · by_cases hlive : h ∈ s.streams.live
    · cases hpast with
      | unopened hdead => exact absurd hlive hdead
      | closed l _ _ hdead => exact absurd hlive hdead
      | opened l hfits hclosed hdata hlife =>
        cases op with
        | streamOpen path contentType malloc alloc => cases htarget
        | entry op => cases htarget
        | nextSession => cases htarget
        | streamClose handle =>
          obtain rfl : handle = some h := htarget
          exact StreamPast.close hfits hdata hinv hlife
        | streamWrite handle data alloc =>
          obtain ⟨full, last, hnext⟩ :=
            streamLife_step hlife hinv (.streamWrite handle data alloc) (by simp)
          rw [StreamLog.next_write]
          refine .opened (l.write _) hfits hclosed ?_ hnext
          rw [writtenTo_snoc, hdata]
          rfl
    · exact hpast.aloof (aloof_dead cfg hlive htarget)
  · exact hpast.aloof (aloof_elsewhere hinv hopens htarget)

end

def drawnWithId (s : Writers) (id : UInt8) : List Nat :=
  (List.range s.streams.draws).filter fun k => decide (streamIdAt k = id)

/- The past of all streams. No stream that was drawn after one that is open, with the same id, has
   given away a block. -/
structure StreamsPast (cfg : Config) (tr : List WritersEvent) (s : Writers) : Prop where
  ok : WritersOk cfg s
  past : ∀ h, StreamPast cfg h tr s (streamLog h tr)
  byId : ∀ id, id ≠ 0 → blocksWithId id tr = (drawnWithId s id).flatMap fun k => blocksOf k tr
  fresh : ∀ h ∈ s.streams.live, ∀ k, h < k → streamIdAt k = streamIdAt h → blocksOf k tr = []

section
variable {cfg : Config} {s : Writers} {tr : List WritersEvent}

theorem flatMap_grow {α : Type} {l : List Nat} (hl : l.Pairwise (· < ·)) {i : Nat} (hi : i ∈ l)
    {f g : Nat → List α} {x : List α} (hsame : ∀ k ∈ l, k ≠ i → g k = f k) (hgrown : g i = f i++x)
    (hlater : ∀ k ∈ l, i < k → f k = []) : l.flatMap g = l.flatMap f++x := by
  induction l with
  | nil => cases hi
  | cons k l ih =>
    obtain ⟨hbelow, hpairs⟩ := List.pairwise_cons.mp hl
    obtain ⟨-, hrest⟩ := List.forall_mem_cons.mp hsame
    obtain ⟨-, hafter⟩ := List.forall_mem_cons.mp hlater
    rw [List.flatMap_cons, List.flatMap_cons]
    by_cases hk : k = i
    · subst hk
      have hnil : l.flatMap f = [] :=
        List.flatMap_eq_nil_iff.mpr fun m hm => hafter m hm (hbelow m hm)
      have hnil' : l.flatMap g = [] := List.flatMap_eq_nil_iff.mpr fun m hm => by
        rw [hrest m hm (hbelow m hm).ne', hafter m hm (hbelow m hm)]
      rw [hnil, hnil', hgrown, List.append_nil, List.append_nil]
    · have hmem : i ∈ l := (List.mem_cons.mp hi).resolve_left fun he => hk he.symm
      rw [ih hpairs hmem hrest hafter, hsame k List.mem_cons_self hk, List.append_assoc]

theorem StreamsPast.undrawn (hpast : StreamsPast cfg tr s) {k : Nat} (hk : s.streams.draws ≤ k) :
    blocksOf k tr = [] := by
  have hone := hpast.past k
  cases hlog : streamLog k tr with
  | none =>
    rw [hlog] at hone
    cases hone with
    | unopened _ hblocks _ => exact hblocks
  | some l =>
    rw [hlog] at hone
    exact absurd (hone.drawn hpast.ok.ids) (Nat.not_lt.mpr hk)

theorem StreamsPast.more_draws (hpast : StreamsPast cfg tr s) (id : UInt8) {n : Nat}
    (hn : s.streams.draws ≤ n) :
    ((List.range n).filter fun k => decide (streamIdAt k = id)).flatMap (blocksOf · tr) =
      (drawnWithId s id).flatMap (blocksOf · tr) := by
  obtain ⟨m, rfl⟩ := Nat.exists_eq_add_of_le hn
  rw [List.range_add, List.filter_append, List.flatMap_append, drawnWithId]
  have hnil : (((List.range m).map (s.streams.draws + ·)).filter
      fun k => decide (streamIdAt k = id)).flatMap (blocksOf · tr) = [] := by
    refine List.flatMap_eq_nil_iff.mpr fun k hk => ?_
    obtain ⟨j, -, rfl⟩ := List.mem_map.mp (List.mem_of_mem_filter hk)
    exact hpast.undrawn (Nat.le_add_right _ _)
  rw [hnil, List.append_nil]

theorem StreamsPast.step_quiet (hpast : StreamsPast cfg tr s) {op : WritersOp} (hop : op.PathFits cfg)
    (hnone : ∀ k ∈ s.streams.live, op.target ≠ some k) :
    StreamsPast cfg (tr++[event (writersStep cfg) s op]) (writersStep cfg s op).1 := by
  obtain ⟨hok, henqueued⟩ := writersStep_ok hpast.ok op fun _ => hop.headerFits
  have hsame (k : Nat) : blocksOf k (tr++[event (writersStep cfg) s op]) = blocksOf k tr := by
    rw [blocksOf_snoc]
    by_cases htarget : op.target = some k
    · have hdead : k ∉ s.streams.live := fun hlive => hnone k hlive htarget
      simp [event, (aloof_dead cfg hdead htarget).blocks htarget]
    · simp [event, htarget]
  refine ⟨hok, fun h => ?_, fun id hid => ?_, fun h hlive k hk hsameId => ?_⟩
  · rw [streamLog_snoc]
    exact (hpast.past h).step hpast.ok.ids op hop
  · have hnothing : (writersStep cfg s op).2.enqueued.filter
        (fun b => decide ((blockHdr b).streamId = id)) = [] := by
      refine List.filter_eq_nil_iff.mpr fun b hb => ?_
      rcases henqueued b hb with hzero | ⟨k, hk, htarget, -⟩
      · simpa [hzero] using hid.symm
      · exact absurd htarget (hnone k hk)
    have hall := List.flatMap_congr fun k (_ : k ∈ drawnWithId (writersStep cfg s op).1 id) => hsame k
    rw [blocksWithId_snoc, hall, drawnWithId, hpast.more_draws id (draws_le cfg op), ← hpast.byId id hid]
    exact (congrArg (blocksWithId id tr++·) hnothing).trans (List.append_nil _)
  · rw [hsame]
    rcases (writersStep_streams cfg op hpast.ok.ids).2 with ⟨-, hlives⟩ | ⟨-, hlives⟩
    · rcases (hlives h).mp hlive with rfl | hold
      · exact hpast.undrawn hk.le
      · exact hpast.fresh h hold k hk hsameId
    · exact hpast.fresh h (hlives h hlive) k hk hsameId

theorem StreamsPast.step_stream (hpast : StreamsPast cfg tr s) {op : WritersOp}
    (hop : op.PathFits cfg) (hids : IdsDistinct s) {i : Nat} (hi : i ∈ s.streams.live)
    (htarget : op.target = some i) :
    StreamsPast cfg (tr++[event (writersStep cfg) s op]) (writersStep cfg s op).1 := by
  obtain ⟨hok, henqueued⟩ := writersStep_ok hpast.ok op fun _ => hop.headerFits
  have hother (k : Nat) (hk : k ≠ i) :
      blocksOf k (tr++[event (writersStep cfg) s op]) = blocksOf k tr := by
    have hnot : op.target ≠ some k := fun he => hk (Option.some.inj (he.symm.trans htarget))
    rw [blocksOf_snoc]
    simp [event, hnot]
  have hgrown : blocksOf i (tr++[event (writersStep cfg) s op]) =
      blocksOf i tr++(writersStep cfg s op).2.enqueued := by
    rw [blocksOf_snoc]
    simp [event, htarget]
  have hmine (b : Buf) (hb : b ∈ (writersStep cfg s op).2.enqueued)
      (hzero : (blockHdr b).streamId ≠ 0) : (blockHdr b).streamId = streamIdAt i := by
    rcases henqueued b hb with h | ⟨k, -, hk, hid⟩
    · exact absurd h hzero
    · rw [hid, Option.some.inj (hk.symm.trans htarget)]
  have hopens : ¬ op.Opens s := by
    cases op with
    | streamOpen path contentType malloc alloc => cases htarget
    | streamWrite handle data alloc | streamClose handle | entry op | nextSession => exact id
  have hlives : ∀ k ∈ (writersStep cfg s op).1.streams.live, k ∈ s.streams.live := by
    rcases (writersStep_streams cfg op hpast.ok.ids).2 with ⟨h, -⟩ | ⟨-, hlives⟩
    · exact absurd h hopens
    · exact hlives
  refine ⟨hok, fun h => ?_, fun id hid => ?_, fun h hlive k hk hsameId => ?_⟩
  · rw [streamLog_snoc]
    exact (hpast.past h).step hpast.ok.ids op hop
  · have hdrawn := hpast.more_draws id (draws_le cfg op)
    rw [← drawnWithId] at hdrawn
    rw [blocksWithId_snoc, hpast.byId id hid, ← hdrawn]
    by_cases hmember : streamIdAt i = id
    · subst hmember
      have hfilter := writersStep_blocks hpast.ok hids hi op hop
      rw [if_pos htarget] at hfilter
      obtain ⟨stream, hs⟩ := Option.isSome_iff_exists.mp (AList.lookup_isSome.mpr hi)
      have hin : i ∈ drawnWithId (writersStep cfg s op).1 (streamIdAt i) := by
        have hlt := (hpast.ok.ids.drawn i stream hs).1.trans_le (draws_le cfg op)
        simpa [drawnWithId] using hlt
      refine (congrArg (_++·) hfilter).trans (flatMap_grow ?_ hin (fun k _ => hother k) hgrown ?_).symm
      · exact List.Pairwise.filter _ List.pairwise_lt_range
      · intro k hk hlater
        exact hpast.fresh i hi k hlater (by simpa using (List.mem_filter.mp hk).2)
    · have hnothing : (writersStep cfg s op).2.enqueued.filter
          (fun b => decide ((blockHdr b).streamId = id)) = [] := by
        refine List.filter_eq_nil_iff.mpr fun b hb => ?_
        rw [decide_eq_true_eq]
        intro he
        exact hmember ((hmine b hb (he ▸ hid)).symm.trans he)
      have hall : (drawnWithId (writersStep cfg s op).1 id).flatMap (fun k => blocksOf k tr) =
          (drawnWithId (writersStep cfg s op).1 id).flatMap
            fun k => blocksOf k (tr++[event (writersStep cfg) s op]) := by
        refine List.flatMap_congr fun k hk => (hother k fun he => hmember ?_).symm
        rw [← he]
        simpa using (List.mem_filter.mp hk).2
      rw [← hall]
      exact (congrArg (_++·) hnothing).trans (List.append_nil _)
  · rw [hother k, hpast.fresh h (hlives h hlive) k hk hsameId]
    rintro rfl
    obtain ⟨streamH, hstreamH⟩ :=
      Option.isSome_iff_exists.mp (AList.lookup_isSome.mpr (hlives h hlive))
    obtain ⟨streamK, hstreamK⟩ := Option.isSome_iff_exists.mp (AList.lookup_isSome.mpr hi)
    refine hids.distinct h k streamH streamK hstreamH hstreamK hk.ne ?_
    rw [(hpast.ok.ids.drawn h _ hstreamH).2, (hpast.ok.ids.drawn k _ hstreamK).2, hsameId]

theorem streamsPast_boot : StreamsPast cfg [] .boot where
  ok := writersOk_boot
  past _ := .unopened (by simp [Writers.boot, Streams.boot]) rfl rfl
  byId id _ := by simp [drawnWithId, Writers.boot, Streams.boot, blocksWithId]
  fresh h hlive := absurd hlive (by simp [Writers.boot, Streams.boot])

/-- Over every run in which open streams have different ids. -/
theorem streamsPast (ops : List WritersOp) (hops : ∀ op ∈ ops, op.PathFits cfg)
    (hids : ∀ u v, ops = u++v → IdsDistinct (writersFinal cfg .boot u)) :
    StreamsPast cfg (trace (writersStep cfg) .boot ops) (writersFinal cfg .boot ops) := by
  induction ops using List.reverseRecOn with
  | nil => exact streamsPast_boot
  | append_singleton ops op ih =>
    have hop := hops op (List.mem_append_right _ (List.mem_singleton_self op))
    have hpast := ih (fun o ho => hops o (List.mem_append_left _ ho)) fun u v h =>
      hids u (v++[op]) (by rw [h, List.append_assoc])
    rw [trace_append, writersFinal, final_snoc]
    by_cases hstream : ∃ i ∈ (writersFinal cfg .boot ops).streams.live, op.target = some i
    · obtain ⟨i, hi, htarget⟩ := hstream
      exact hpast.step_stream hop (hids ops [op] rfl) hi htarget
    · exact hpast.step_quiet hop fun k hk htarget => hstream ⟨k, hk, htarget⟩

end
end Pouch
