import PouchNode.StreamSegments
import PouchNode.UplinkSession
import PouchNode.DownlinkReassembly

/-! What the writers give away in a run, entries and streams taking turns: finished blocks of
bounded length, and among them those with the id 0, which hold the accepted entries. -/
namespace Pouch
open Machine Chunks Octets

def ClosedBlock (cfg : Config) (b : Buf) : Prop :=
  ∃ byte p, b = closedBlock byte p ∧ p.length ≤ cfg.maxBlockPayloadSize

def WritersEvent.entry (e : WritersEvent) : Option PouchEntry :=
  match e.input, e.output.result with
  | .entry op, .ret .ok => op.entry
  | _, _ => none

def writtenEntries (tr : List WritersEvent) : List PouchEntry := tr.flatMap fun e => e.entry.toList
def givenAway (tr : List WritersEvent) : List Buf := tr.flatMap fun e => e.output.enqueued

def WritersOp.Fits (cfg : Config) : WritersOp → Prop
  | .entry op => op.Addressable cfg
  | op => op.PathFits cfg

theorem WritersOp.Fits.pathFits {cfg : Config} {op : WritersOp} (h : op.Fits cfg) :
    op.PathFits cfg := by
  cases op with
  | entry op => trivial
  | streamOpen path contentType malloc alloc => exact h
  | streamWrite handle data alloc => trivial
  | streamClose handle => trivial
  | nextSession => trivial

section
variable {cfg : Config}

theorem ClosedBlock.wellFormed (hmax : cfg.maxBlockPayloadSize ≤ 32768) {b : Buf}
    (h : ClosedBlock cfg b) : WellFormedBlock cfg b := by
  obtain ⟨byte, p, rfl, hp⟩ := h
  have hsize : getBe16 (closedBlock byte p) = 1 + p.length := by
    have hhdr : (blockHdr (closedBlock byte p)).blockSize = (1 + p.length) % 65536 := by
      rw [blockHdr_closedBlock]
    rw [Nat.mod_eq_of_lt (by omega)] at hhdr
    exact hhdr
  refine ⟨?_, ?_, ?_⟩
  · rw [IsBlock, hsize, length_closedBlock]
    omega
  · omega
  · rw [hsize, Config.maxBlockSizeFieldValue, Config.maxCiphertextBlockSize,
      Config.maxPlaintextBlockSize]
    omega

theorem segments_closed (id : UInt8) {full : List Buf}
    (hfull : ∀ q ∈ full, q.length ≤ cfg.maxBlockPayloadSize) (first : Bool) :
    ∀ b ∈ segments id first full, ClosedBlock cfg b := by
  induction full generalizing first with
  | nil => simp [segments]
  | cons p ps ih =>
    obtain ⟨hp, hps⟩ := List.forall_mem_cons.mp hfull
    rw [segments, List.forall_mem_cons]
    exact ⟨⟨_, p, rfl, hp⟩, ih hps false⟩

theorem pouchStreamWrite_closed {stream : PouchStream} (h : stream.Ok cfg) (sessionId : UInt32)
    (alloc : Nat → Bool) (data : Buf) :
    ∀ b ∈ (pouchStreamWrite cfg sessionId alloc stream data).2.2, ClosedBlock cfg b := by
  obtain ⟨first, p, hbuf, hp⟩ := h
  obtain ⟨id, buf, bytes, sid⟩ := stream
  obtain rfl : buf = openBlock (flagged id first) p := hbuf
  by_cases hvalid : sid = sessionId
  · subst hvalid
    obtain ⟨taken, full, last, -, -, hwrite, hcut⟩ :=
      pouchStreamWrite_spec sid alloc id bytes first data hp
    rw [hwrite]
    exact segments_closed id (fun q hq => (hcut.full_length q hq).le) first
  · simp [pouchStreamWrite, pouchStreamIsValid, hvalid]

theorem pouchStreamClose_closed {stream : PouchStream} (h : stream.Ok cfg) (sessionId : UInt32) :
    ∀ b ∈ pouchStreamClose cfg sessionId stream, ClosedBlock cfg b := by
  obtain ⟨first, p, hbuf, hp⟩ := h
  intro b hb
  simp only [pouchStreamClose, hbuf, blockFinishStream_openBlock hp] at hb
  split at hb
  · rw [List.mem_singleton.mp hb]
    exact ⟨_, p, rfl, hp⟩
  · cases hb

theorem writersStep_stream {s : Writers} (h : WritersOk cfg s) {op : WritersOp}
    (hop : ∀ o, op ≠ .entry o) :
    ∀ b ∈ (writersStep cfg s op).2.enqueued, ClosedBlock cfg b ∧ (blockHdr b).streamId ≠ 0 := by
  cases op with
  | entry o => exact absurd rfl (hop o)
  | streamOpen path contentType malloc alloc => simp [writersStep]
  | nextSession => simp [writersStep]
  | streamWrite handle data alloc =>
    rcases streamWrite_cases cfg s handle data alloc with hsame | ⟨i, stream, -, hlive, hstep⟩
    · simp [hsame]
    · obtain ⟨-, hid⟩ := h.ids.drawn i stream hlive
      intro b hb
      rw [hstep] at hb
      refine ⟨pouchStreamWrite_closed (h.streams i stream hlive) _ _ _ b hb, ?_⟩
      rw [(pouchStreamWrite_ok (h.streams i stream hlive) hid _ _ _).2 b hb]
      exact streamIdAt_ne_zero i
  | streamClose handle =>
    rcases streamClose_cases cfg s handle with hsame | ⟨i, stream, -, hlive, hstep⟩
    · simp [hsame]
    · obtain ⟨-, hid⟩ := h.ids.drawn i stream hlive
      intro b hb
      rw [hstep] at hb
      refine ⟨pouchStreamClose_closed (h.streams i stream hlive) _ b hb, ?_⟩
      rw [pouchStreamClose_streamId (h.streams i stream hlive) hid _ b hb]
      exact streamIdAt_ne_zero i

structure WritersRun (cfg : Config) (tr : List WritersEvent) (s : Writers)
    (groups : List (List PouchEntry)) (last : List PouchEntry) : Prop where
  ok : WritersOk cfg s
  current : OpenEntries cfg s.entry last
  entries : groups.flatten++last = writtenEntries tr
  blocks : blocksWithId 0 tr = groups.map (closedBlock 0xC0 ∘ encodings)
  closed : ∀ b ∈ givenAway tr, ClosedBlock cfg b

theorem closedBlock_entries (es : List PouchEntry) :
    (blockHdr (closedBlock 0xC0 (encodings es))).streamId = 0 := by
  rw [blockHdr_closedBlock]
  rfl

variable {tr : List WritersEvent} {s : Writers} {groups : List (List PouchEntry)}
  {last : List PouchEntry}

theorem WritersRun.entry (h : WritersRun cfg tr s groups last) (op : EntryOp)
    (hop : op.Addressable cfg) :
    ∃ groups last, WritersRun cfg (tr++[event (writersStep cfg) s (.entry op)])
      (writersStep cfg s (.entry op)).1 groups last := by
  obtain ⟨flushed, new, hflushed, hcurrent, henqueued, hentries⟩ :=
    entryStep_effect h.current op hop
  have hfits : ∀ g ∈ flushed, (encodings g).length ≤ cfg.maxBlockPayloadSize := by
    rcases hflushed with rfl | rfl
    · simp
    · simpa using h.current.fits
  have haccepted : WritersEvent.entry (event (writersStep cfg) s (.entry op)) =
      EntryEvent.accepted (event (entryStep cfg) s.entry op) := by
    cases hret : (entryStep cfg s.entry op).2.ret with
    | ok => simp [WritersEvent.entry, event, writersStep, EntryEvent.accepted, hret]
    | err e => simp [WritersEvent.entry, event, writersStep, EntryEvent.accepted, hret]
  refine ⟨groups++flushed, new, ?_, hcurrent, ?_, ?_, ?_⟩
  · exact (writersStep_ok h.ok (.entry op) fun _ => trivial).1
  · have hold := h.entries
    simp only [writtenEntries, List.flatMap_append, List.flatMap_singleton, haccepted] at hold ⊢
    rw [← hold, List.flatten_append, List.append_assoc, List.append_assoc, hentries]
  · rw [blocksWithId_snoc, h.blocks, List.map_append]
    congr 1
    have hids : ∀ b ∈ flushed.map (closedBlock 0xC0 ∘ encodings), (blockHdr b).streamId = 0 := by
      intro b hb
      obtain ⟨g, -, rfl⟩ := List.mem_map.mp hb
      exact closedBlock_entries g
    exact (congrArg (List.filter _) henqueued).trans (filter_streamId 0 _ hids)
  · intro b hb
    rw [givenAway, List.flatMap_append, List.mem_append] at hb
    rcases hb with hb | hb
    · exact h.closed b hb
    · rw [List.flatMap_singleton] at hb
      have hmem : b ∈ flushed.map (closedBlock 0xC0 ∘ encodings) := henqueued ▸ hb
      obtain ⟨g, hg, rfl⟩ := List.mem_map.mp hmem
      exact ⟨0xC0, encodings g, rfl, hfits g hg⟩

theorem WritersRun.other (h : WritersRun cfg tr s groups last) {op : WritersOp}
    (hop : ∀ o, op ≠ .entry o) (hfits : op.Fits cfg) :
    WritersRun cfg (tr++[event (writersStep cfg) s op]) (writersStep cfg s op).1 groups last := by
  have hstream := writersStep_stream h.ok hop
  have hnone : WritersEvent.entry (event (writersStep cfg) s op) = none := by
    cases op with
    | entry o => exact absurd rfl (hop o)
    | streamOpen path contentType malloc alloc => rfl
    | streamWrite handle data alloc => rfl
    | streamClose handle => rfl
    | nextSession => rfl
  refine ⟨(writersStep_ok h.ok op fun _ => hfits.pathFits.headerFits).1, ?_, ?_, ?_, ?_⟩
  · rw [writersStep_entry s hop]
    exact h.current
  · rw [h.entries, writtenEntries, writtenEntries, List.flatMap_append, List.flatMap_singleton, hnone]
    exact (List.append_nil _).symm
  · rw [blocksWithId_snoc, h.blocks]
    have hno : (event (writersStep cfg) s op).output.enqueued.filter
        (fun b => decide ((blockHdr b).streamId = 0)) = [] := by
      rw [List.filter_eq_nil_iff]
      intro b hb
      simpa using (hstream b hb).2
    rw [hno, List.append_nil]
  · intro b hb
    rw [givenAway, List.flatMap_append, List.mem_append, List.flatMap_singleton] at hb
    exact hb.elim (h.closed b) fun hb => (hstream b hb).1

theorem writersRun_boot : WritersRun cfg [] .boot [] [] :=
  ⟨writersOk_boot, openEntries_none, rfl, rfl, by simp [givenAway]⟩

/-- Over a whole run the blocks with the id 0, and then the open one, hold the entries that were
accepted, whole and in order. -/
theorem writersRun (ops : List WritersOp) (hops : ∀ op ∈ ops, op.Fits cfg) :
    ∃ groups last, WritersRun cfg (trace (writersStep cfg) .boot ops) (writersFinal cfg .boot ops)
      groups last := by
  induction ops using List.reverseRecOn with
  | nil => exact ⟨[], [], writersRun_boot⟩
  | append_singleton ops op ih =>
    obtain ⟨groups, last, hrun⟩ := ih fun op hop => hops op (List.mem_append_left _ hop)
    have hfits := hops op (List.mem_append_right _ (List.mem_singleton_self op))
    rw [trace_append, writersFinal, final_snoc]
    cases op with
    | entry o => exact hrun.entry o hfits
    | streamOpen path contentType malloc alloc => exact ⟨_, _, hrun.other (by simp) hfits⟩
    | streamWrite handle data alloc => exact ⟨_, _, hrun.other (by simp) hfits⟩
    | streamClose handle => exact ⟨_, _, hrun.other (by simp) hfits⟩
    | nextSession => exact ⟨_, _, hrun.other (by simp) hfits⟩

end
end Pouch
