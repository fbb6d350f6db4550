import PouchNode.StreamHistory
import PouchNode.WrittenBlocks

/-! The streams in the blocks that a peer gets, whatever the crypto module. What the handlers are
called for under an id is what was written to the streams that have had it, one after the other. -/
namespace Pouch
open Machine Chunks Fragments

section Written
variable {κ : Type*} {cfg : Config} (crypto : CryptoOps cfg κ)

def packetStreamLog (k : κ) (ops : List (ReadOp AppOp)) (h : Nat) : Option StreamLog :=
  (trace (packetStep crypto) (.boot (.boot k)) ops).foldl (fun log e =>
    match e.input with
    | .other ⟨.write op, _⟩ =>
      StreamLog.next h log (event (writersStep cfg) e.state.ctx.state.writers op)
    | _ => log) none

theorem writesIn_transport (k : κ) (calls : List UplinkOp) {new : List UplinkOp}
    (hnew : ∀ op ∈ new, op.isTransport = true) :
    ∃ ws, writesIn (uplinkTrace crypto (.boot k) (calls++new)) =
      writesIn (uplinkTrace crypto (.boot k) calls)++ws ∧ ∀ w ∈ ws, w = .nextSession := by
  induction new using List.reverseRecOn with
  | nil => exact ⟨[], by simp, by simp⟩
  | append_singleton new op ih =>
    obtain ⟨hrest, hop⟩ := List.forall_mem_append.mp hnew
    obtain ⟨ws, hws, hall⟩ := ih hrest
    have hlast := transport_writes (hop op (List.mem_singleton_self op))
      (uplinkFinal crypto (.boot k) (calls++new)).pouchClosing
    rw [← List.append_assoc, writesIn_snoc, hws, List.append_assoc]
    exact ⟨_, rfl, List.forall_mem_append.mpr ⟨hall, hlast⟩⟩

theorem foldl_sessions (h : Nat) (log : Option StreamLog) {ws : List WritersOp}
    (hws : ∀ w ∈ ws, w = .nextSession) (s : Writers) :
    (trace (writersStep cfg) s ws).foldl (StreamLog.next h) log = log := by
  induction ws generalizing s with
  | nil => rfl
  | cons w ws ih =>
    obtain ⟨rfl, hrest⟩ := List.forall_mem_cons.mp hws
    exact ih hrest _

variable {crypto} {k : κ} {ops : List (ReadOp AppOp)} {calls : List UplinkOp}

theorem CallsOf.streams (hcalls : CallsOf crypto k ops calls) (h : Nat) :
    packetStreamLog crypto k ops h = streamLog h (writersAlone crypto k calls) := by
  induction hcalls with
  | nil => rfl
  | @other ops calls op before ih =>
    rw [packetStreamLog, trace_append, List.foldl_append, ← packetStreamLog, ih, writersAlone_snoc,
      streamLog, streamLog, List.foldl_append, ← streamLog, ← before.state]
    obtain ⟨op, hop⟩ := op
    cases op with
    | write op => rfl
    | close lock =>
      simp only [trace_cons, trace_nil, List.foldl_cons, List.foldl_nil, event, UplinkOp.writes]
      cases (packetFinal crypto k ops).ctx.state.pouchClosing <;> rfl
    | enqueue block | process => rfl
    | start | fill maxlen | finish => cases hop
  | @read ops calls new malloc len offset before transport state ih =>
    have hread : packetStreamLog crypto k (ops++[.read malloc len offset]) h =
        packetStreamLog crypto k ops h := by
      rw [packetStreamLog, trace_append, List.foldl_append, ← packetStreamLog]
      rfl
    obtain ⟨ws, hws, hall⟩ := writesIn_transport crypto k calls transport
    rw [hread, ih, streamLog, streamLog, writersAlone, writersAlone, hws, trace_append,
      List.foldl_append, foldl_sessions h _ hall]

theorem sessions_streams {ws : List WritersOp} (hws : ∀ w ∈ ws, w = .nextSession) (s : Writers) :
    (writersFinal cfg s ws).streams = s.streams := by
  induction ws generalizing s with
  | nil => rfl
  | cons w ws ih =>
    obtain ⟨rfl, hrest⟩ := List.forall_mem_cons.mp hws
    exact ih hrest _

theorem IdsDistinct.congr {s t : Writers} (h : IdsDistinct s) (hstreams : t.streams = s.streams) :
    IdsDistinct t := by
  refine ⟨?_, ?_⟩
  · rw [hstreams]
    exact h.ne_zero
  · rw [hstreams]
    exact h.distinct

theorem length_writes_le (op : UplinkOp) (closing : Bool) : (op.writes closing).length ≤ 1 := by
  cases op with
  | close lock => cases closing <;> simp [UplinkOp.writes]
  | write op | finish | enqueue block | process | start | fill maxlen => simp [UplinkOp.writes]

/-- Streams whose ids are different after every step of the characteristic are so all along. -/
theorem CallsOf.idsDistinct (hcalls : CallsOf crypto k ops calls)
    (hids : ∀ u v, ops = u++v → IdsDistinct (packetFinal crypto k u).ctx.state.writers) :
    ∀ u v, writesIn (uplinkTrace crypto (.boot k) calls) = u++v →
      IdsDistinct (writersFinal cfg .boot u) := by
  induction hcalls with
  | nil =>
    intro u v h
    obtain ⟨rfl, -⟩ := List.append_eq_nil_iff.mp h.symm
    exact hids [] [] rfl
  | @other ops calls op before ih =>
    have hbefore := ih fun u v h => hids u (v++[.other op]) (by rw [h, List.append_assoc])
    intro u v h
    rw [writesIn_snoc] at h
    rcases List.append_eq_append_iff.mp h with ⟨as, rfl, has⟩ | ⟨bs, hu, -⟩
    · have hlen := length_writes_le op.1 (uplinkFinal crypto (.boot k) calls).pouchClosing
      rw [has, List.length_append] at hlen
      by_cases hnil : as = []
      · rw [hnil, List.append_nil]
        exact hbefore _ [] (List.append_nil _).symm
      · have hv : v = [] := by
          have hpos := List.length_pos_of_ne_nil hnil
          exact List.length_eq_zero_iff.mp (by omega)
        have hend := hids (ops++[.other op]) [] (List.append_nil _).symm
        rw [(before.other op).state, uplinkFinal_writers, writesIn_snoc, has, hv,
          List.append_nil] at hend
        exact hend
    · exact hbefore u bs hu
  | @read ops calls new malloc len offset before transport state ih =>
    have hbefore := ih fun u v h => hids u (v++[.read malloc len offset])
      (by rw [h, List.append_assoc])
    obtain ⟨ws, hws, hall⟩ := writesIn_transport crypto k calls transport
    intro u v h
    rw [hws] at h
    rcases List.append_eq_append_iff.mp h with ⟨as, rfl, has⟩ | ⟨bs, hu, -⟩
    · have hsame : ∀ w ∈ as, w = .nextSession := fun w hw =>
        hall w (has ▸ List.mem_append_left _ hw)
      refine (hbefore _ [] (List.append_nil _).symm).congr ?_
      rw [writersFinal, final_append]
      exact sessions_streams hsame _
    · exact hbefore u bs hu

end Written

section Told
variable {cfg : Config} {h : Nat}

def StreamLog.FrontTold (h : Nat) (l : StreamLog) (calls : List HandlerCall) : Prop :=
  calls = [] ∨ ∃ (parts : List Buf) (rest : Buf), rest ≠ [] ∧ parts.flatten++rest = l.data ∧
    calls = .start (streamIdAt h).toUInt32 l.path l.contentType ::
      parts.map fun d => .data (streamIdAt h).toUInt32 d d.length false

/- What the handlers are to be told of a stream: all of it if it is complete. -/
def StreamLog.Told (cfg : Config) (h : Nat) (l : StreamLog) (calls : List HandlerCall) : Prop :=
  if l.Complete cfg then Delivered (streamIdAt h).toUInt32 l.path l.contentType l.data calls
  else l.FrontTold h calls

def ToldOf (cfg : Config) (h : Nat) : Option StreamLog → List HandlerCall → Prop
  | none, calls => calls = []
  | some l, calls => l.Told cfg h calls

theorem StreamLog.told_empty {l : StreamLog} {calls : List HandlerCall} (htold : l.Told cfg h calls)
    (hempty : l.data = []) : calls = [] := by
  rw [StreamLog.Told, if_neg (by simp [StreamLog.Complete, hempty])] at htold
  rcases htold with hnone | ⟨parts, rest, hrest, hdata, -⟩
  · exact hnone
  · rw [hempty, List.append_eq_nil_iff] at hdata
    exact absurd hdata.2 hrest

theorem segments_told (hmax : cfg.maxBlockPayloadSize ≤ 32768) {l : StreamLog} (hfits : l.Fits cfg)
    {full : List Buf} {last : Buf} (hcut : Cut cfg.maxBlockPayloadSize full last (l.header++l.data)) :
    ∃ calls, handlerCallsAll cfg (segments (streamIdAt h) true full) = some calls ∧
      l.FrontTold h calls := by
  have hlt := payload_lt hcut
  have hheader : l.header.length ≤ cfg.maxBlockPayloadSize :=
    (length_streamHeader l.contentType l.path).trans_le hfits.2
  rcases hcut.front hheader with ⟨rfl, -⟩ | ⟨c, more, rfl, hdata⟩
  · exact ⟨[], rfl, Or.inl rfl⟩
  · have hlast := hcut.last_ne_nil (List.cons_ne_nil _ _)
    have hhead := handlerCalls_head hfits.1 (hlt _ (by simp [StreamLog.header]))
      (blockHdr_open h true (l.header++c))
    have hrest := handlerCallsAll_segments (k := h) more fun q hq => hlt q (by simp [hq])
    have hshort : ∀ q ∈ c :: more, q.length < 65536 := by
      intro q hq
      have hle : ∀ q ∈ (l.header++c) :: more, q.length ≤ cfg.maxBlockPayloadSize := fun q hq =>
        hcut.length_le q (List.mem_append_left _ hq)
      rcases List.mem_cons.mp hq with rfl | hq
      · have := hle _ List.mem_cons_self
        rw [List.length_append] at this
        omega
      · exact (hle q (List.mem_cons_of_mem _ hq)).trans_lt (by omega)
    have hwhole : (c :: more).map (dataCall (streamIdAt h).toUInt32 false) =
        (c :: more).map fun d => .data (streamIdAt h).toUInt32 d d.length false :=
      List.map_congr_left fun q hq => dataCall_whole (hshort q hq)
    refine ⟨_, ?_, Or.inr ⟨c :: more, last, hlast, hdata, congrArg _ hwhole⟩⟩
    rw [segments, handlerCallsAll, StreamLog.header, hhead, hrest]
    rfl

/-- The blocks of a stream, whatever has become of it, tell what they should. -/
theorem StreamPast.told {s : Writers} {tr : List WritersEvent} {log : Option StreamLog}
    (hpast : StreamPast cfg h tr s log) (hmax : cfg.maxBlockPayloadSize ≤ 32768) :
    ∃ calls, handlerCallsAll cfg (blocksOf h tr) = some calls ∧ ToldOf cfg h log calls := by
  cases hpast with
  | unopened _ hblocks _ =>
    rw [hblocks]
    exact ⟨[], rfl, rfl⟩
  | opened l hfits hclosed hdata hlife =>
    rw [hlife.blocks]
    have hcut := hlife.cut
    rw [hdata] at hcut
    obtain ⟨calls, hcalls, htold⟩ := segments_told hmax hfits hcut
    refine ⟨calls, hcalls, ?_⟩
    rw [ToldOf, StreamLog.Told, if_neg (by simp [StreamLog.Complete, hclosed])]
    exact htold
  | closed l hfits _ _ hcut hblocks =>
    rw [hblocks]
    by_cases hcomplete : l.Complete cfg
    · obtain ⟨parts, rest, hdata, hcalls, hwhole⟩ := closedSegments_calls hfits.1 hfits.2 hcut
      rw [if_pos hcomplete]
      refine ⟨_, hcalls, ?_⟩
      rw [ToldOf, StreamLog.Told, if_pos hcomplete, ← hdata]
      exact (delivered_iff _ _ _ parts rest).mpr (hwhole.mpr (Or.inl hmax))
    · obtain ⟨calls, hcalls, htold⟩ := segments_told hmax hfits hcut
      rw [if_neg hcomplete]
      refine ⟨calls, hcalls, ?_⟩
      rw [ToldOf, StreamLog.Told, if_neg hcomplete]
      exact htold

end Told

section Handed
variable {cfg : Config}

theorem handlerCallsAll_flatMap {l : List Nat} {blocks : Nat → List Buf}
    {told : Nat → List HandlerCall} (h : ∀ k, handlerCallsAll cfg (blocks k) = some (told k)) :
    handlerCallsAll cfg (l.flatMap blocks) = some (l.flatMap told) := by
  induction l with
  | nil => rfl
  | cons k l ih => simp [handlerCallsAll_append, h k, ih]

theorem handlerCallsAll_prefix {bs cs : List Buf} (hfront : bs <+: cs) {calls : List HandlerCall}
    (hcalls : handlerCallsAll cfg cs = some calls) :
    ∃ front, handlerCallsAll cfg bs = some front ∧ front <+: calls := by
  obtain ⟨rest, rfl⟩ := hfront
  rw [handlerCallsAll_append] at hcalls
  cases hbs : handlerCallsAll cfg bs with
  | none => simp [hbs] at hcalls
  | some front =>
    cases hrest : handlerCallsAll cfg rest with
    | none => simp [hbs, hrest] at hcalls
    | some more =>
      refine ⟨front, rfl, more, ?_⟩
      simpa [hbs, hrest] using hcalls

section Sent
variable {κ : Type*} {crypto : CryptoOps cfg κ} {k : κ} {sent : List (ReadOp AppOp)}
  {calls : List UplinkOp} {done : List (UplinkPouch crypto)}

/-- The streams of a device that share an id, and what their blocks tell. -/
theorem Sent.streams (h : Sent crypto k sent calls done) (hmax : cfg.maxBlockPayloadSize ≤ 32768)
    (hids : ∀ u v, sent = u++v → IdsDistinct (packetFinal crypto k u).ctx.state.writers)
    {id : UInt8} (hid : id ≠ 0) :
    ∃ told : Nat → List HandlerCall, (∀ j, ToldOf cfg j (packetStreamLog crypto k sent j) (told j)) ∧
      handlerCallsAll cfg ((givenBlocks crypto k calls).filter
        fun b => decide ((blockHdr b).streamId = id)) =
        some ((drawnWithId (packetFinal crypto k sent).ctx.state.writers id).flatMap told) := by
  have hpast := streamsPast (writesIn (uplinkTrace crypto (.boot k) calls))
    (fun w hw => (h.proper w hw).1.pathFits) (h.callsOf.idsDistinct hids)
  have htold (j : Nat) := (hpast.past j).told hmax
  choose told hcalls htold using htold
  refine ⟨told, fun j => ?_, ?_⟩
  · rw [h.callsOf.streams]
    exact htold j
  · rw [h.callsOf.state, uplinkFinal_writers]
    exact (congrArg (handlerCallsAll cfg) (hpast.byId id hid)).trans (handlerCallsAll_flatMap hcalls)

/-- While few streams have been drawn, their ids are different. -/
theorem idsDistinct_of_few {ops : List (ReadOp AppOp)}
    (hfits : ∀ u op v, ops = u++op :: v → PacketFits crypto (packetFinal crypto k u) op)
    (hproper : ∀ op, .other op ∈ ops → op.1.Proper cfg)
    (hdraws : ∀ n < ops.length + 1,
      (packetFinal crypto k (ops.take n)).ctx.state.writers.streams.draws ≤ 31)
    (u v : List (ReadOp AppOp)) (h : ops = u++v) :
    IdsDistinct (packetFinal crypto k u).ctx.state.writers := by
  have hfront : ops.take u.length = u := by rw [h, List.take_left]
  have hlen : u.length < ops.length + 1 := by
    rw [h, List.length_append]
    omega
  obtain ⟨calls, done, hsent⟩ := exists_sent crypto k u
    (fun x op y hx => hfits x op (y++v) (by rw [h, hx, List.append_assoc, List.cons_append]))
    (fun op hop => hproper op (h ▸ List.mem_append_left v hop))
  have hinv : StreamsInv (packetFinal crypto k u).ctx.state.writers.streams := by
    rw [hsent.callsOf.state, uplinkFinal_writers]
    exact writersFinal_streams cfg _
  have hfew := hdraws u.length hlen
  rw [hfront] at hfew
  exact idsDistinct_of_draws hinv hfew

variable {id : UInt8} {told : List HandlerCall}

/-- Given the first of the blocks, the handlers are told a front part of it, -/
theorem Sent.told_prefix (h : Sent crypto k sent calls done)
    (hmax : cfg.maxBlockPayloadSize ≤ 32768)
    (htold : handlerCallsAll cfg ((givenBlocks crypto k calls).filter
      fun b => decide ((blockHdr b).streamId = id)) = some told)
    {handed : List Buf} (hhanded : handed <+: givenBlocks crypto k calls) :
    ∃ calls, handlerCallsAll cfg handed = some calls ∧ callsWithId id calls <+: told := by
  obtain ⟨groups, last, hgroups⟩ := h.groups hmax
  have hentry := entryBlock_of_filter hgroups.blocks hgroups.short
  obtain ⟨calls, hcalls, hfilter⟩ :=
    handlerCallsAll_filter id fun b hb => hentry b (hhanded.subset hb)
  obtain ⟨front, hfront, hahead⟩ := handlerCallsAll_prefix (hhanded.filter _) htold
  rw [hfilter, Option.some.injEq] at hfront
  exact ⟨calls, hcalls, hfront ▸ hahead⟩

/-- and given all of them, they are told all of it. -/
theorem Sent.told_all (h : Sent crypto k sent calls done) (hmax : cfg.maxBlockPayloadSize ≤ 32768)
    (htold : handlerCallsAll cfg ((givenBlocks crypto k calls).filter
      fun b => decide ((blockHdr b).streamId = id)) = some told) :
    ∃ handlers, handlerCallsAll cfg (givenBlocks crypto k calls) = some handlers ∧
      callsWithId id handlers = told := by
  obtain ⟨groups, last, hgroups⟩ := h.groups hmax
  obtain ⟨handlers, hcalls, hfilter⟩ :=
    handlerCallsAll_filter id (entryBlock_of_filter hgroups.blocks hgroups.short)
  rw [htold, Option.some.injEq] at hfilter
  exact ⟨handlers, hcalls, hfilter.symm⟩

end Sent

end Handed
end Pouch
