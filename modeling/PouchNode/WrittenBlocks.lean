import PouchNode.UplinkPackets
import PouchNode.WritersRun
import PouchNode.DownlinkRoundTrip

/-! What a peer gets of the blocks that the application has written, whatever the crypto module:
those of the pouches it has read, in their order, and the entries that are in them. -/
namespace Pouch
open Machine Fragments
variable {κ : Type*} {cfg : Config}

section Written
variable (crypto : CryptoOps cfg κ)

def writesIn (tr : List (UplinkEvent κ)) : List WritersOp :=
  tr.flatMap fun e => e.input.writes e.state.pouchClosing

theorem writesIn_snoc (k : κ) (calls : List UplinkOp) (op : UplinkOp) :
    writesIn (uplinkTrace crypto (.boot k) (calls++[op])) =
      writesIn (uplinkTrace crypto (.boot k) calls)++
        op.writes (uplinkFinal crypto (.boot k) calls).pouchClosing := by
  simp [writesIn, trace_append, event]

abbrev writersAlone (k : κ) (calls : List UplinkOp) : List WritersEvent :=
  trace (writersStep cfg) .boot (writesIn (uplinkTrace crypto (.boot k) calls))

theorem uplinkFinal_writers (k : κ) (calls : List UplinkOp) :
    (uplinkFinal crypto (.boot k) calls).writers =
      writersFinal cfg .boot (writesIn (uplinkTrace crypto (.boot k) calls)) := by
  induction calls using List.reverseRecOn with
  | nil => rfl
  | append_singleton calls op ih =>
    rw [uplinkFinal, final_snoc, uplinkStep_writers, writesIn_snoc, writersFinal, final_append,
      ← writersFinal, ← ih]

theorem writersAlone_snoc (k : κ) (calls : List UplinkOp) (op : UplinkOp) :
    writersAlone crypto k (calls++[op]) = writersAlone crypto k calls++
      trace (writersStep cfg) (uplinkFinal crypto (.boot k) calls).writers
        (op.writes (uplinkFinal crypto (.boot k) calls).pouchClosing) := by
  rw [writersAlone, writesIn_snoc, trace_append, uplinkFinal_writers]

theorem uplinkStep_givenAway (s : Uplink κ) {op : UplinkOp} (hop : ∀ b, op ≠ .enqueue b) :
    (uplinkStep crypto s op).2.enqueued =
      givenAway (trace (writersStep cfg) s.writers (op.writes s.pouchClosing)) := by
  cases op with
  | enqueue b => exact absurd rfl (hop b)
  | write op => simp [uplinkStep, UplinkOp.writes, givenAway, event]
  | close lock =>
    cases hc : s.pouchClosing with
    | true => simp [uplinkStep, pouchUplinkClose, hc, UplinkOp.writes, givenAway]
    | false => simp [uplinkStep, pouchUplinkClose, hc, UplinkOp.writes, givenAway, event,
        writersStep, entryStep]
  | process => rfl
  | start => rfl
  | fill maxlen => rfl
  | finish => simp [uplinkStep, UplinkOp.writes, givenAway, event, writersStep]

theorem enqueued_givenAway (k : κ) {calls : List UplinkOp} (hcalls : ∀ op ∈ calls, ∀ b, op ≠ .enqueue b) :
    enqueuedInRun (uplinkTrace crypto (.boot k) calls) = givenAway (writersAlone crypto k calls) := by
  induction calls using List.reverseRecOn with
  | nil => rfl
  | append_singleton calls op ih =>
    have hop := hcalls op (List.mem_append_right _ (List.mem_singleton_self op))
    rw [writersAlone_snoc, givenAway, List.flatMap_append, ← givenAway, ← givenAway,
      ← ih fun op hmem => hcalls op (List.mem_append_left _ hmem), ← uplinkStep_givenAway crypto _ hop]
    exact (congrArg enqueuedInRun (trace_append ..)).trans (enqueuedInRun_snoc _ _)

def writtenBy (cfg : Config) (s : Uplink κ) : UplinkOp → Option PouchEntry
  | .write op => WritersEvent.entry (event (writersStep cfg) s.writers op)
  | _ => none

theorem writtenEntries_writes (s : Uplink κ) (op : UplinkOp) :
    writtenEntries (trace (writersStep cfg) s.writers (op.writes s.pouchClosing)) =
      (writtenBy cfg s op).toList := by
  cases op with
  | write op => simp [UplinkOp.writes, writtenEntries, writtenBy]
  | close lock =>
    cases hc : s.pouchClosing with
    | true => rfl
    | false =>
      have hnone : WritersEvent.entry (event (writersStep cfg) s.writers (.entry (.close lock))) =
          none := by
        cases hret : (entryStep cfg s.writers.entry (.close lock)).2.ret with
        | ok => simp [WritersEvent.entry, event, writersStep, EntryOp.entry, hret]
        | err e => simp [WritersEvent.entry, event, writersStep, hret]
      simp [UplinkOp.writes, writtenEntries, writtenBy, hnone]
  | _ => rfl

def packetEntries (k : κ) (ops : List (ReadOp AppOp)) : List PouchEntry :=
  (trace (packetStep crypto) (.boot (.boot k)) ops).flatMap fun e =>
    match e.input with
    | .other op => (writtenBy cfg e.state.ctx.state op.1).toList
    | .read _ _ _ => []

theorem CallsOf.state {crypto : CryptoOps cfg κ} {k : κ} {ops : List (ReadOp AppOp)}
    {calls : List UplinkOp} (h : CallsOf crypto k ops calls) :
    (packetFinal crypto k ops).ctx.state = uplinkFinal crypto (.boot k) calls := by
  induction h with
  | nil => rfl
  | other op before ih =>
    rw [packetFinal, final_snoc, uplinkFinal, final_snoc, ← uplinkFinal, ← ih]
    rfl
  | read malloc len offset before transport state ih => exact state

theorem transport_writes {op : UplinkOp} (h : op.isTransport = true) (closing : Bool) :
    ∀ w ∈ op.writes closing, w = .nextSession := by
  cases op with
  | start => simp [UplinkOp.writes]
  | fill maxlen => simp [UplinkOp.writes]
  | finish => simp [UplinkOp.writes]
  | enqueue block | write op | close lock | process => cases h

theorem CallsOf.entries {crypto : CryptoOps cfg κ} {k : κ} {ops : List (ReadOp AppOp)}
    {calls : List UplinkOp} (h : CallsOf crypto k ops calls) :
    packetEntries crypto k ops = writtenEntries (writersAlone crypto k calls) := by
  induction h with
  | nil => rfl
  | @other ops calls op before ih =>
    rw [packetEntries, trace_append, List.flatMap_append, ← packetEntries, ih, writersAlone_snoc,
      writtenEntries, writtenEntries, List.flatMap_append, ← writtenEntries, ← writtenEntries,
      writtenEntries_writes, ← before.state]
    simp [event]
  | @read ops calls new malloc len offset before transport state ih =>
    have hread : packetEntries crypto k (ops++[.read malloc len offset]) = packetEntries crypto k ops := by
      rw [packetEntries, trace_append, List.flatMap_append, ← packetEntries]
      simp [event]
    rw [hread, ih]
    clear state hread ih before
    induction new using List.reverseRecOn with
    | nil => rw [List.append_nil]
    | append_singleton new op ih =>
      have hop := transport op (List.mem_append_right _ (List.mem_singleton_self op))
      rw [ih fun op hmem => transport op (List.mem_append_left _ hmem), ← List.append_assoc,
        writersAlone_snoc, writtenEntries, writtenEntries, List.flatMap_append, ← writtenEntries,
        ← writtenEntries, writtenEntries_writes]
      cases op with
      | start | fill maxlen | finish => simp [writtenBy]
      | enqueue block | write op | close lock | process => cases hop

end Written

section Handed

def HandlerCall.streamId : HandlerCall → UInt32
  | .start streamId _ _ => streamId
  | .data streamId _ _ _ => streamId

def callsWithId (id : UInt8) (calls : List HandlerCall) : List HandlerCall :=
  calls.filter fun call => decide (call.streamId = id.toUInt32)
abbrev entryCalls (calls : List HandlerCall) : List HandlerCall := callsWithId 0 calls

def CallsFor {α : Type} (streamId : UInt32) (m : PushM α) : Prop :=
  ∀ c, ∃ calls, (m c).2.events.filterMap PushEvent.call =
    c.events.filterMap PushEvent.call++calls ∧ ∀ call ∈ calls, call.streamId = streamId

variable {streamId : UInt32}

theorem CallsFor.bind {α β : Type} {x : PushM α} {f : α → PushM β} (hx : CallsFor streamId x)
    (hf : ∀ a, CallsFor streamId (f a)) : CallsFor streamId (x >>= f) := by
  intro c
  obtain ⟨calls, hcalls, hids⟩ := hx c
  obtain ⟨more, hmore, hmoreIds⟩ := hf (x c).1 (x c).2
  refine ⟨calls++more, ?_, fun call hmem => ?_⟩
  · rw [bind_apply, hmore, hcalls, List.append_assoc]
  · exact (List.mem_append.mp hmem).elim (hids call) (hmoreIds call)

theorem callsFor_emit {event : PushEvent}
    (h : ∀ call, event.call = some call → call.streamId = streamId) :
    CallsFor streamId (emit event) := by
  intro c
  refine ⟨event.call.toList, ?_, fun call hmem => h call (Option.mem_toList.mp hmem)⟩
  rw [emit_apply, List.filterMap_append]
  cases hcall : event.call with
  | none => simp [hcall]
  | some call => simp [hcall]

theorem callsFor_quiet {α : Type} {m : PushM α} (h : ∀ c, (m c).2.events = c.events) :
    CallsFor streamId m :=
  fun c => ⟨[], by rw [h, List.append_nil], by simp⟩

theorem callsFor_read (offset bytes : Nat) : CallsFor streamId (emit (.read offset bytes)) :=
  callsFor_emit (by simp [PushEvent.call])

theorem callsFor_readBe16 : CallsFor streamId readBe16 := by
  refine CallsFor.bind (callsFor_quiet fun c => rfl) fun c => ?_
  refine CallsFor.bind (callsFor_read _ _) fun _ => ?_
  exact CallsFor.bind (callsFor_quiet fun c => rfl) fun _ => callsFor_quiet fun c => rfl

theorem callsFor_readByte : CallsFor streamId readByte := by
  refine CallsFor.bind (callsFor_quiet fun c => rfl) fun c => ?_
  refine CallsFor.bind (callsFor_read _ _) fun _ => ?_
  exact CallsFor.bind (callsFor_quiet fun c => rfl) fun _ => callsFor_quiet fun c => rfl

theorem callsFor_readBytes (cfg : Config) (n : Nat) : CallsFor streamId (readBytes cfg n) := by
  refine CallsFor.bind (callsFor_quiet fun c => rfl) fun c => ?_
  refine CallsFor.bind (callsFor_emit (by simp [PushEvent.call])) fun _ => ?_
  exact CallsFor.bind (callsFor_quiet fun c => rfl) fun _ => callsFor_quiet fun c => rfl

theorem callsFor_streamStart (cfg : Config) (id : UInt8) :
    CallsFor id.toUInt32 (streamStartPush cfg id) := by
  refine callsFor_readBe16.bind fun contentType => callsFor_readByte.bind fun pathLen => ?_
  refine (callsFor_readBytes cfg _).bind fun path => ?_
  refine (callsFor_emit (by simp [PushEvent.call])).bind fun _ => ?_
  exact callsFor_emit (by simp [PushEvent.call, HandlerCall.streamId])

theorem callsFor_streamData (cfg : Config) (id : UInt8) (isLast : Bool) :
    CallsFor id.toUInt32 (streamDataPush cfg id isLast) := by
  refine CallsFor.bind (callsFor_quiet fun c => rfl) fun dataLen => ?_
  refine (callsFor_readBytes cfg _).bind fun data => ?_
  exact callsFor_emit (by simp [PushEvent.call, HandlerCall.streamId])

theorem callsFor_stream (cfg : Config) (id : UInt8) (isFirst isLast : Bool) :
    CallsFor id.toUInt32 (pouchDownlinkStreamPush cfg id isFirst isLast) := by
  cases isFirst with
  | false =>
    rw [streamPush_next]
    exact callsFor_streamData cfg id isLast
  | true => exact (callsFor_streamStart cfg id).bind fun _ => callsFor_streamData cfg id isLast

theorem isStream_iff (b : Buf) : (blockHdr b).isStream = true ↔ (blockHdr b).streamId ≠ 0 :=
  ⟨fun h => of_decide_eq_true h, fun h => decide_eq_true h⟩

theorem handlerCalls_stream (cfg : Config) {b : Buf} (h : (blockHdr b).streamId ≠ 0) :
    ∃ calls, handlerCalls cfg b = some calls ∧
      ∀ call ∈ calls, call.streamId = (blockHdr b).streamId.toUInt32 := by
  obtain ⟨calls, hcalls, hids⟩ := callsFor_stream cfg (blockHdr b).streamId (blockHdr b).isFirst
    (blockHdr b).isLast ⟨⟨some b, 3⟩, [.read 0 2, .read 2 1]⟩
  refine ⟨calls, ?_, hids⟩
  rw [handlerCalls, blockPush_eq, if_pos ((isStream_iff b).mpr h)]
  simpa [List.filterMap_cons, PushEvent.call] using hcalls

theorem writeEntries_fits {es : List PouchEntry} (hshort : ∀ e ∈ es, e.Short) {payload : Buf}
    (hfit : (payload++encodings es).length ≤ cfg.maxBlockPayloadSize) :
    writeEntries cfg (openBlock 0xC0 payload) es = some (openBlock 0xC0 (payload++encodings es)) := by
  induction es generalizing payload with
  | nil => simp [writeEntries]
  | cons e es ih =>
    obtain ⟨he, hes⟩ := List.forall_mem_cons.mp hshort
    have hsplit : payload++encodings (e :: es) = (payload++e.encoding)++encodings es := by
      simp [encodings]
    rw [hsplit] at hfit ⊢
    have hroom : payload.length + e.size ≤ cfg.maxBlockPayloadSize := by
      rw [← length_encoding]
      simp only [List.length_append] at hfit
      omega
    rw [writeEntries, writeEntry_openBlock (by omega) (he.size_lt cfg), if_pos hroom]
    exact ih hes hfit

theorem handlerCalls_entries {es : List PouchEntry} (hshort : ∀ e ∈ es, e.Short)
    (hfit : (encodings es).length ≤ cfg.maxBlockPayloadSize) :
    handlerCalls cfg (closedBlock 0xC0 (encodings es)) = some (es.flatMap PouchEntry.calls) := by
  have hwritten : writeEntries cfg (openBlock 0xC0 []) es = some (openBlock 0xC0 (encodings es)) :=
    writeEntries_fits hshort hfit
  rw [← blockFinish_openBlock hfit]
  exact entries_read_back hshort hwritten

theorem entries_streamId {es : List PouchEntry} :
    ∀ call ∈ es.flatMap PouchEntry.calls, call.streamId = (0 : UInt8).toUInt32 := by
  intro call hmem
  obtain ⟨e, -, he⟩ := List.mem_flatMap.mp hmem
  simp only [PouchEntry.calls, List.mem_cons, List.not_mem_nil, or_false] at he
  rcases he with rfl | rfl
  · rfl
  · rfl

def EntryBlock (cfg : Config) (b : Buf) : Prop :=
  ∃ es : List PouchEntry, b = closedBlock 0xC0 (encodings es) ∧
    (encodings es).length ≤ cfg.maxBlockPayloadSize ∧ ∀ e ∈ es, e.Short

theorem handlerCalls_id {b : Buf} (h : (blockHdr b).streamId = 0 → EntryBlock cfg b) :
    ∃ calls, handlerCalls cfg b = some calls ∧
      ∀ call ∈ calls, call.streamId = (blockHdr b).streamId.toUInt32 := by
  by_cases hid : (blockHdr b).streamId = 0
  · obtain ⟨es, rfl, hfit, hshort⟩ := h hid
    refine ⟨_, handlerCalls_entries hshort hfit, ?_⟩
    rw [hid]
    exact entries_streamId
  · exact handlerCalls_stream cfg hid

theorem toUInt32_inj {a b : UInt8} : a.toUInt32 = b.toUInt32 ↔ a = b := by
  refine ⟨fun h => UInt8.toNat_inj.mp ?_, congrArg _⟩
  simpa using congrArg UInt32.toNat h

theorem handlerCallsAll_filter (id : UInt8) {blocks : List Buf}
    (hblocks : ∀ b ∈ blocks, (blockHdr b).streamId = 0 → EntryBlock cfg b) :
    ∃ calls, handlerCallsAll cfg blocks = some calls ∧
      handlerCallsAll cfg (blocks.filter fun b => decide ((blockHdr b).streamId = id)) =
        some (callsWithId id calls) := by
  induction blocks with
  | nil => exact ⟨[], rfl, rfl⟩
  | cons b blocks ih =>
    obtain ⟨hb, hrest⟩ := List.forall_mem_cons.mp hblocks
    obtain ⟨more, hmore, hmine⟩ := ih hrest
    obtain ⟨calls, hcalls, hids⟩ := handlerCalls_id hb
    refine ⟨calls++more, by simp [handlerCallsAll, hcalls, hmore], ?_⟩
    rw [callsWithId, List.filter_append, ← callsWithId, ← callsWithId]
    by_cases hid : (blockHdr b).streamId = id
    · have hall : callsWithId id calls = calls := by
        rw [callsWithId, List.filter_eq_self]
        intro call hcall
        rw [hids call hcall, hid, decide_eq_true_eq]
      rw [List.filter_cons_of_pos (by simpa using hid), hall]
      simp [handlerCallsAll, hcalls, hmine]
    · have hnone : callsWithId id calls = [] := by
        rw [callsWithId, List.filter_eq_nil_iff]
        intro call hcall
        rw [hids call hcall, decide_eq_true_eq, toUInt32_inj]
        exact hid
      rw [List.filter_cons_of_neg (by simpa using hid), hnone, List.nil_append, hmine]

theorem entryBlock_of_filter {blocks : List Buf} {groups : List (List PouchEntry)}
    (hblocks : blocks.filter (fun b => decide ((blockHdr b).streamId = 0)) =
      groups.map (closedBlock 0xC0 ∘ encodings))
    (hshort : ∀ es ∈ groups, (encodings es).length ≤ cfg.maxBlockPayloadSize ∧ ∀ e ∈ es, e.Short) :
    ∀ b ∈ blocks, (blockHdr b).streamId = 0 → EntryBlock cfg b := by
  intro b hb hid
  have hmem : b ∈ groups.map (closedBlock 0xC0 ∘ encodings) :=
    hblocks ▸ List.mem_filter.mpr ⟨hb, by simpa using hid⟩
  obtain ⟨es, hes, rfl⟩ := List.mem_map.mp hmem
  exact ⟨es, rfl, hshort es hes⟩

theorem handlerCallsAll_groups {groups : List (List PouchEntry)}
    (hshort : ∀ es ∈ groups, (encodings es).length ≤ cfg.maxBlockPayloadSize ∧ ∀ e ∈ es, e.Short) :
    handlerCallsAll cfg (groups.map (closedBlock 0xC0 ∘ encodings)) =
      some (groups.flatten.flatMap PouchEntry.calls) := by
  induction groups with
  | nil => rfl
  | cons es groups ih =>
    obtain ⟨hes, hrest⟩ := List.forall_mem_cons.mp hshort
    simp [handlerCallsAll, handlerCalls_entries hes.2 hes.1, ih hrest]

end Handed

section Proper

def WritersOp.Proper (cfg : Config) (op : WritersOp) : Prop :=
  op.Fits cfg ∧ ∀ o entry, op = .entry o → o.entry = some entry → strlen entry.path ≤ 255

def UplinkOp.Proper (cfg : Config) (op : UplinkOp) : Prop :=
  (∀ b, op ≠ .enqueue b) ∧ ∀ w, op = .write w → w.Proper cfg

theorem AppOp.write_proper {w : WritersOp} (h : w.Proper cfg) : (AppOp.write w).1.Proper cfg := by
  refine ⟨?_, ?_⟩
  · intro b he
    cases he
  · intro o he
    cases he
    exact h

theorem AppOp.close_proper : AppOp.close.1.Proper cfg := by
  simp [UplinkOp.Proper, AppOp.close]

theorem AppOp.process_proper : AppOp.process.1.Proper cfg := by
  simp [UplinkOp.Proper, AppOp.process]

theorem UplinkOp.Proper.writes {op : UplinkOp} (h : op.Proper cfg) (closing : Bool) :
    ∀ w ∈ op.writes closing, w.Proper cfg := by
  have hclose (lock : Ret) : (WritersOp.entry (.close lock)).Proper cfg := by
    refine ⟨fun entry he => ?_, fun o entry ho he => ?_⟩
    · cases he
    · cases ho
      cases he
  cases op with
  | write w => simpa [UplinkOp.writes] using h.2 w rfl
  | close lock =>
    cases closing with
    | true => simp [UplinkOp.writes]
    | false => simpa [UplinkOp.writes] using hclose lock
  | finish => simp [UplinkOp.writes, WritersOp.Proper, WritersOp.Fits, WritersOp.PathFits]
  | enqueue block | process | start | fill maxlen => simp [UplinkOp.writes]

theorem transport_proper {op : UplinkOp} (h : op.isTransport = true) : op.Proper cfg := by
  cases op with
  | start | fill maxlen | finish => simp [UplinkOp.Proper]
  | enqueue block | write op | close lock | process => cases h

theorem CallsOf.proper {crypto : CryptoOps cfg κ} {k : κ} {ops : List (ReadOp AppOp)}
    {calls : List UplinkOp} (h : CallsOf crypto k ops calls)
    (hops : ∀ op, .other op ∈ ops → op.1.Proper cfg) : ∀ op ∈ calls, op.Proper cfg := by
  induction h with
  | nil => simp
  | other op before ih =>
    refine List.forall_mem_append.mpr ⟨ih fun o ho => hops o (List.mem_append_left _ ho), ?_⟩
    simpa using hops op (List.mem_append_right _ (List.mem_singleton_self _))
  | read malloc len offset before transport state ih =>
    exact List.forall_mem_append.mpr ⟨ih fun o ho => hops o (List.mem_append_left _ ho),
      fun op hop => transport_proper (transport op hop)⟩

theorem writesIn_proper (crypto : CryptoOps cfg κ) (k : κ) {calls : List UplinkOp}
    (hcalls : ∀ op ∈ calls, op.Proper cfg) :
    ∀ w ∈ writesIn (uplinkTrace crypto (.boot k) calls), w.Proper cfg := by
  induction calls using List.reverseRecOn with
  | nil => simp [writesIn]
  | append_singleton calls op ih =>
    rw [writesIn_snoc]
    exact List.forall_mem_append.mpr ⟨ih fun op hop => hcalls op (List.mem_append_left _ hop),
      (hcalls op (List.mem_append_right _ (List.mem_singleton_self op))).writes _⟩

theorem writtenEntries_path {ops : List WritersOp} (hops : ∀ op ∈ ops, op.Proper cfg) :
    ∀ e ∈ writtenEntries (trace (writersStep cfg) .boot ops), strlen e.path ≤ 255 := by
  intro entry hmem
  obtain ⟨e, he, hentry⟩ := List.mem_flatMap.mp hmem
  have hinput := mem_trace (writersStep cfg) he
  obtain ⟨u, op, v, rfl, rfl⟩ := hinput
  cases op with
  | entry o =>
    refine (hops (.entry o) (by simp)).2 o entry rfl ?_
    simp only [WritersEvent.entry, event, Option.mem_toList] at hentry
    split at hentry
    · next hsame _ =>
      cases hsame
      exact hentry
    · cases hentry
  | streamOpen path contentType malloc alloc => simp [WritersEvent.entry, event] at hentry
  | streamWrite handle data alloc => simp [WritersEvent.entry, event] at hentry
  | streamClose handle => simp [WritersEvent.entry, event] at hentry
  | nextSession => simp [WritersEvent.entry, event] at hentry

end Proper

section Sent

theorem WritersRun.short {tr : List WritersEvent} {s : Writers} {groups : List (List PouchEntry)}
    {last : List PouchEntry} (h : WritersRun cfg tr s groups last)
    (hmax : cfg.maxBlockPayloadSize ≤ 32768) (hpath : ∀ e ∈ writtenEntries tr, strlen e.path ≤ 255) :
    ∀ es ∈ groups, (encodings es).length ≤ cfg.maxBlockPayloadSize ∧ ∀ e ∈ es, e.Short := by
  intro es hes
  have hblock : closedBlock 0xC0 (encodings es) ∈ blocksWithId 0 tr := by
    rw [h.blocks]
    exact List.mem_map.mpr ⟨es, hes, rfl⟩
  obtain ⟨byte, p, hp, hlen⟩ := h.closed _ (List.mem_of_mem_filter hblock)
  have hpayload : encodings es = p := by simpa using congrArg blockPayload hp
  rw [← hpayload] at hlen
  refine ⟨hlen, fun e he => ⟨hpath e ?_, ?_⟩⟩
  · rw [← h.entries]
    exact List.mem_append_left _ (List.mem_flatten.mpr ⟨es, hes, he⟩)
  · have hsub : e.encoding.length ≤ (encodings es).length :=
      (List.sublist_flatten_of_mem (List.mem_map_of_mem he)).length_le
    rw [length_encoding, PouchEntry.size] at hsub
    omega

variable (crypto : CryptoOps cfg κ) (k : κ)

abbrev sentMessages (ops : List (ReadOp AppOp)) : List Buf :=
  (outputs (packetStep crypto) (.boot (.boot k)) ops).filterMap id

def AllSent (ops : List (ReadOp AppOp)) : Prop :=
  (packetFinal crypto k ops).ctx.packetizer = none ∧
  (packetFinal crypto k ops).ctx.state.processing.queue = [] ∧
  (packetFinal crypto k ops).ctx.state.writers.entry = none

abbrev givenBlocks (calls : List UplinkOp) : List Buf :=
  givenAway (writersAlone crypto k calls)

structure Sent (ops : List (ReadOp AppOp)) (calls : List UplinkOp)
    (done : List (UplinkPouch crypto)) : Prop where
  callsOf : CallsOf crypto k ops calls
  proper : ∀ w ∈ writesIn (uplinkTrace crypto (.boot k) calls), w.Proper cfg
  messages : sentMessages crypto k ops = done.map UplinkPouch.bytes
  front : done.flatMap UplinkPouch.blocks <+: givenBlocks crypto k calls
  closed : ∀ b ∈ givenBlocks crypto k calls, ClosedBlock cfg b
  all : AllSent crypto k ops → done.flatMap UplinkPouch.blocks = givenBlocks crypto k calls

theorem exists_sent (ops : List (ReadOp AppOp))
    (hfits : ∀ u op v, ops = u++op :: v → PacketFits crypto (packetFinal crypto k u) op)
    (hproper : ∀ op, .other op ∈ ops → op.1.Proper cfg) : ∃ calls done, Sent crypto k ops calls done := by
  obtain ⟨calls, done, coming, hcalls, hdelivered, houts⟩ :=
    packetFinal_delivered crypto k ops hfits
  obtain ⟨hblocks, hidle⟩ := hdelivered.blocks
  have hallProper := hcalls.proper hproper
  have hwrites := writesIn_proper crypto k hallProper
  obtain ⟨groups, last, hrun⟩ := writersRun
    (writesIn (uplinkTrace crypto (.boot k) calls)) fun w hw => (hwrites w hw).1
  rw [enqueued_givenAway crypto k fun op hop => (hallProper op hop).1] at hblocks
  refine ⟨calls, done, hcalls, hwrites, houts, ?_, hrun.closed, ?_⟩
  · rw [givenBlocks, ← hblocks, List.append_assoc]
    exact List.prefix_append _ _
  · rintro ⟨hpacketizer, hqueue, -⟩
    rw [hidle hpacketizer, hqueue, List.append_nil, List.append_nil] at hblocks
    exact hblocks

/- What a device has sent of its entries: groups of them in the blocks with the id 0, and those
   that are still in the open block. -/
structure SentGroups (ops : List (ReadOp AppOp)) (calls : List UplinkOp)
    (groups : List (List PouchEntry)) (last : List PouchEntry) : Prop where
  blocks : (givenBlocks crypto k calls).filter (fun b => decide ((blockHdr b).streamId = 0)) =
    groups.map (closedBlock 0xC0 ∘ encodings)
  entries : groups.flatten++last = packetEntries crypto k ops
  short : ∀ es ∈ groups, (encodings es).length ≤ cfg.maxBlockPayloadSize ∧ ∀ e ∈ es, e.Short
  all : AllSent crypto k ops → last = []

variable {crypto k}

theorem Sent.groups {ops : List (ReadOp AppOp)} {calls : List UplinkOp}
    {done : List (UplinkPouch crypto)} (h : Sent crypto k ops calls done)
    (hmax : cfg.maxBlockPayloadSize ≤ 32768) :
    ∃ groups last, SentGroups crypto k ops calls groups last := by
  obtain ⟨groups, last, hrun⟩ := writersRun
    (writesIn (uplinkTrace crypto (.boot k) calls)) fun w hw => (h.proper w hw).1
  refine ⟨groups, last, hrun.blocks, hrun.entries.trans h.callsOf.entries.symm,
    hrun.short hmax (writtenEntries_path h.proper), ?_⟩
  rintro ⟨-, -, hentry⟩
  rw [h.callsOf.state, uplinkFinal_writers] at hentry
  rcases hrun.current.block_eq with hsome | hnone
  · rw [hentry] at hsome
    cases hsome
  · exact hnone.2

def HandsEntries (cfg : Config) (handed : List Buf) (entries : List PouchEntry) : Prop :=
  ∃ calls, handlerCallsAll cfg handed = some calls ∧ entryCalls calls = entries.flatMap PouchEntry.calls

/-- The handlers, given some of the blocks, get some of the groups of entries. -/
theorem SentGroups.handed {ops : List (ReadOp AppOp)} {calls : List UplinkOp}
    {groups : List (List PouchEntry)} {last : List PouchEntry}
    (h : SentGroups crypto k ops calls groups last) {handed : List Buf} {gs : List (List PouchEntry)}
    (hhanded : handed.filter (fun b => decide ((blockHdr b).streamId = 0)) =
      gs.map (closedBlock 0xC0 ∘ encodings)) (hgs : gs.Sublist groups) :
    HandsEntries cfg handed gs.flatten := by
  have hshort (es : List PouchEntry) (hes : es ∈ gs) := h.short es (hgs.subset hes)
  obtain ⟨calls, hcalls, hfilter⟩ :=
    handlerCallsAll_filter 0 (entryBlock_of_filter hhanded hshort)
  rw [hhanded, handlerCallsAll_groups hshort, Option.some.injEq] at hfilter
  exact ⟨calls, hcalls, hfilter.symm⟩

section Entries
variable {ops : List (ReadOp AppOp)} {calls : List UplinkOp} {done : List (UplinkPouch crypto)}
  {handed : List Buf}

/-- Of some of the blocks the handlers get some of the entries, in their order, -/
theorem Sent.entries_sublist (h : Sent crypto k ops calls done)
    (hmax : cfg.maxBlockPayloadSize ≤ 32768) (hhanded : handed.Sublist (givenBlocks crypto k calls)) :
    ∃ entries : List PouchEntry, entries.Sublist (packetEntries crypto k ops) ∧
      HandsEntries cfg handed entries := by
  obtain ⟨groups, last, hgroups⟩ := h.groups hmax
  have hsublist := hhanded.filter fun b => decide ((blockHdr b).streamId = 0)
  rw [hgroups.blocks, List.sublist_map_iff] at hsublist
  obtain ⟨gs, hgs, hmap⟩ := hsublist
  refine ⟨gs.flatten, ?_, hgroups.handed hmap hgs⟩
  rw [← hgroups.entries]
  exact hgs.flatten.trans (List.sublist_append_left _ _)

/-- of the first blocks the first entries, -/
theorem Sent.entries_prefix (h : Sent crypto k ops calls done)
    (hmax : cfg.maxBlockPayloadSize ≤ 32768) (hhanded : handed <+: givenBlocks crypto k calls) :
    ∃ entries, entries <+: packetEntries crypto k ops ∧ HandsEntries cfg handed entries := by
  obtain ⟨groups, last, hgroups⟩ := h.groups hmax
  have hfront := hhanded.filter fun b => decide ((blockHdr b).streamId = 0)
  rw [hgroups.blocks, List.prefix_map_iff] at hfront
  obtain ⟨gs, hgs, hmap⟩ := hfront
  refine ⟨gs.flatten, ?_, hgroups.handed hmap hgs.sublist⟩
  rw [← hgroups.entries]
  exact hgs.flatten.trans (List.prefix_append _ _)

/-- and of all blocks all of them, once everything has been sent. -/
theorem Sent.entries_all (h : Sent crypto k ops calls done)
    (hmax : cfg.maxBlockPayloadSize ≤ 32768) (hall : AllSent crypto k ops) :
    HandsEntries cfg (givenBlocks crypto k calls) (packetEntries crypto k ops) := by
  obtain ⟨groups, last, hgroups⟩ := h.groups hmax
  have hhanded := hgroups.handed hgroups.blocks (List.Sublist.refl groups)
  rwa [← hgroups.entries, hgroups.all hall, List.append_nil]

end Entries
end Sent
end Pouch
