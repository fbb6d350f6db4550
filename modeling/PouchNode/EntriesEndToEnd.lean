import PouchNode.CryptoNone
import PouchNode.WrittenBlocks

/-! Entries from one end to the other, without encryption: written on a device, read as packets of
pouches, written as packets to a device, and handed to its handlers. -/
namespace Pouch
open Machine Fragments

section EndToEnd
variable {cfg : Config}

section
variable (cfg : Config) (d : PlainDevice)

abbrev PlainDevice.messages (ops : List (ReadOp AppOp)) : List Buf :=
  sentMessages (cryptoNoneUplink cfg d) 0 ops
abbrev PlainDevice.entries (ops : List (ReadOp AppOp)) : List PouchEntry :=
  packetEntries (cryptoNoneUplink cfg d) 0 ops
abbrev PlainDevice.given (calls : List UplinkOp) : List Buf :=
  givenBlocks (cryptoNoneUplink cfg d) 0 calls
abbrev PlainDevice.AllSent (ops : List (ReadOp AppOp)) : Prop :=
  Pouch.AllSent (cryptoNoneUplink cfg d) 0 ops

end

def PouchExceeds (cfg : Config) (header message : Buf) : Prop :=
  ∀ blocks, (∀ b ∈ blocks, WellFormedBlock cfg b) → message = header++blocks.flatten →
    LastPairExceeds cfg blocks

theorem exists_packetPouches {ι : Type*} {env : DownlinkEnv Unit ι} {α : Type*} {message : α → Buf}
    {blocks : α → List Buf} {done : List α}
    (hdone : ∀ p ∈ done, PouchFor cfg env (message p) (blocks p)) {packets : List (List Buf)}
    (hpackets : List.Forall₂ Brings packets (done.map message)) :
    ∃ pouches : List (PacketPouch cfg env),
      pouches.flatMap PacketPouch.packets = packets.flatten ∧
      pouches.map PacketPouch.blocks = done.map blocks := by
  induction done generalizing packets with
  | nil =>
    obtain rfl := List.forall₂_nil_right_iff.mp hpackets
    exact ⟨[], rfl, rfl⟩
  | cons p done ih =>
    obtain ⟨first, rest, hfirst, hrest, rfl⟩ := List.forall₂_cons_right_iff.mp hpackets
    obtain ⟨hp, hmore⟩ := List.forall_mem_cons.mp hdone
    obtain ⟨pouches, hflat, hblocks⟩ := ih hmore hrest
    exact ⟨⟨first, blocks p, message p, hfirst, hp⟩ :: pouches, by simp [hflat], by simp [hblocks]⟩

section Handed
variable {d : PlainDevice}

/-- The blocks from one end to the other: what the handlers get of those that were given away. -/
theorem Sent.handed {sent : List (ReadOp AppOp)} {calls : List UplinkOp}
    {done : List (UplinkPouch (cryptoNoneUplink cfg d))}
    (h : Sent (cryptoNoneUplink cfg d) 0 sent calls done)
    (hmax : cfg.maxBlockPayloadSize ≤ 32768) {decode : Buf → Option (EncryptionInfo × Nat)}
    {alloc : Nat → Bool} (hheader : d.header.length ≤ cfg.maxCiphertextBlockSize)
    (hvalid : ValidHeader (cryptoNoneReceiver decode alloc) () d.header)
    (halloc : ∀ n, alloc n = true) {packets : List (List Buf)}
    (hpackets : List.Forall₂ Brings packets (d.messages cfg sent))
    {received : List DownlinkChrcOp}
    (hreceived : received.filterMap DownlinkChrcOp.packet <+: packets.flatten) :
    (chrcHanded cfg decode alloc received).Sublist (d.given cfg calls) ∧
    ((∀ message ∈ d.messages cfg sent, PouchExceeds cfg d.header message) →
      chrcHanded cfg decode alloc received <+: d.given cfg calls ∧
      (d.AllSent cfg sent → received.filterMap DownlinkChrcOp.packet = packets.flatten →
        ∀ n, (chrcPending cfg decode alloc received).length ≤ n →
          chrcHanded cfg decode alloc (received++handlerRuns n) = d.given cfg calls)) := by
  have hwellFormed (p : UplinkPouch (cryptoNoneUplink cfg d)) (hp : p ∈ done) :
      ∀ b ∈ p.blocks, WellFormedBlock cfg b := fun b hb =>
    (h.closed b (h.front.subset (List.mem_flatMap.mpr ⟨p, hp, hb⟩))).wellFormed hmax
  have hpouches (p : UplinkPouch (cryptoNoneUplink cfg d)) (hp : p ∈ done) :=
    p.plain_for (hwellFormed p hp) hheader hvalid
  have hmessages : d.messages cfg sent = done.map UplinkPouch.bytes := h.messages
  rw [hmessages] at hpackets ⊢
  obtain ⟨pouches, hflat, hblocks⟩ := exists_packetPouches hpouches hpackets
  have hall : pouches.flatMap PacketPouch.blocks = done.flatMap UplinkPouch.blocks := by
    rw [List.flatMap_def, hblocks, ← List.flatMap_def]
  obtain ⟨kept, hsub, hkept, hahead, hdone⟩ :=
    chrcReceived cfg decode alloc halloc pouches received (hflat ▸ hreceived)
  rw [hall] at hsub hkept
  rw [hflat] at hdone
  have hhanded : chrcHanded cfg decode alloc received <+: kept :=
    (List.prefix_append _ _).trans hahead
  refine ⟨(hhanded.sublist.trans hsub).trans h.front.sublist, fun hexceeds => ?_⟩
  have hlast : ∀ p ∈ pouches, LastPairExceeds cfg p.blocks := by
    intro p hp
    obtain ⟨q, hq, hsame⟩ := List.mem_map.mp (hblocks ▸ List.mem_map_of_mem hp)
    rw [← hsame]
    rcases q.plain_bytes (hwellFormed q hq) with ⟨-, hnone⟩ | hbytes
    · intro pre b c hsplit
      rw [hnone] at hsplit
      simp at hsplit
    · exact hexceeds q.bytes (List.mem_map_of_mem hq) q.blocks (hwellFormed q hq) hbytes
  have hkept := hkept hlast
  refine ⟨(hhanded.trans (by rw [hkept])).trans h.front, fun hsentAll hreceivedAll n hn => ?_⟩
  rw [chrcHanded_runs cfg decode alloc received hn, hdone hreceivedAll, hkept, h.all hsentAll]

end Handed

variable (cfg) (d : PlainDevice) (decode : Buf → Option (EncryptionInfo × Nat)) (alloc : Nat → Bool)

/-- Without encryption, from one end to the other. A device writes entries and streams and is read
by a peer; the pouches that the peer gets are written, in packets of any sizes, to a device that
can allocate buffers, and its handlers run whenever they do. At all times these have been called
for entries that were written, in their order and for none of them twice. If in no pouch the last
two blocks fit into a buffer together, none is left out either, and when everything has been sent
and has come, and the handlers have run often enough, they have been called for all entries. -/
theorem entries_end_to_end (hmax : cfg.maxBlockPayloadSize ≤ 32768)
    (hheader : d.header.length ≤ cfg.maxCiphertextBlockSize)
    (hvalid : ValidHeader (cryptoNoneReceiver decode alloc) () d.header)
    (halloc : ∀ n, alloc n = true) (sent : List (ReadOp AppOp))
    (hfits : ∀ u op v, sent = u++op :: v →
      PacketFits (cryptoNoneUplink cfg d) (packetFinal (cryptoNoneUplink cfg d) 0 u) op)
    (hproper : ∀ op, .other op ∈ sent → op.1.Proper cfg) (packets : List (List Buf))
    (hpackets : List.Forall₂ Brings packets (d.messages cfg sent))
    (received : List DownlinkChrcOp)
    (hreceived : received.filterMap DownlinkChrcOp.packet <+: packets.flatten) :
    (∃ entries : List PouchEntry, entries.Sublist (d.entries cfg sent) ∧
      HandsEntries cfg (chrcHanded cfg decode alloc received) entries) ∧
    ((∀ message ∈ d.messages cfg sent, PouchExceeds cfg d.header message) →
      (∃ entries, entries <+: d.entries cfg sent ∧
        HandsEntries cfg (chrcHanded cfg decode alloc received) entries) ∧
      (d.AllSent cfg sent → received.filterMap DownlinkChrcOp.packet = packets.flatten →
        ∀ n, (chrcPending cfg decode alloc received).length ≤ n →
          HandsEntries cfg (chrcHanded cfg decode alloc (received++handlerRuns n))
            (d.entries cfg sent))) := by
  obtain ⟨uplink, done, hsent⟩ := exists_sent (cryptoNoneUplink cfg d) 0 sent hfits hproper
  obtain ⟨hsub, hexact⟩ := hsent.handed hmax hheader hvalid halloc hpackets hreceived
  refine ⟨hsent.entries_sublist hmax hsub, fun hexceeds => ?_⟩
  obtain ⟨hahead, hend⟩ := hexact hexceeds
  refine ⟨hsent.entries_prefix hmax hahead, fun hsentAll hreceivedAll n hn => ?_⟩
  rw [hend hsentAll hreceivedAll n hn]
  exact hsent.entries_all hmax hsentAll

theorem pouchExceeds_one {header block : Buf} (hblock : IsBlock block) :
    PouchExceeds cfg header (header++block) := by
  intro blocks hblocks hmessage pre b c hsplit
  rw [List.append_cancel_left_eq] at hmessage
  have hone : ∀ w ∈ [block], IsBlock w := fun w hw => by rwa [List.mem_singleton.mp hw]
  obtain ⟨rest, hrest, hnil⟩ := isBlock_code.split (x := []) hone
    (fun w hw => (hblocks w hw).isBlock) (by simpa using hmessage)
  have hlen := congrArg List.length (hrest.symm.trans hsplit)
  cases rest with
  | nil => simp at hlen
  | cons w rest =>
    obtain ⟨hw, -⟩ := List.append_eq_nil_iff.mp hnil.symm
    exact absurd hw (isBlock_code.ne_nil w (hblocks w (by simp [hrest])).isBlock)

def shortestHeader : HeaderEncoder := fun header maxlen =>
  if header.cbor.length ≤ maxlen then some header.cbor else none

theorem shortestHeader_canonical : shortestHeader.Canonical where
  room _ _ h := if_pos h
  noRoom _ _ h := if_neg (Nat.not_le.mpr h)

def deviceA : PlainDevice := ⟨pathA, shortestHeader, shortestHeader_canonical, fun _ => true⟩

def sentByA : List (ReadOp AppOp) :=
  [.other (AppOp.write (.entry (.write (some pathA) 42 (some [7]) .ok true))),
    .other AppOp.close, .read true 100 0, .other AppOp.process, .read false 100 0]

def receivedFromA : List DownlinkChrcOp :=
  [.write ([packetFirst]++plainHeader++[0]), .write [packetLast, 8, 0xC0, 0, 1, 0, 42, 1, 0x61, 7]]

theorem sentByA_fits (u : List (ReadOp AppOp)) (op : ReadOp AppOp) (v : List (ReadOp AppOp))
    (h : sentByA = u++op :: v) : PacketFits (cryptoNoneUplink plainConfig deviceA)
      (packetFinal (cryptoNoneUplink plainConfig deviceA) 0 u) op := by
  have hall : ∀ u op v, sentByA = u++op :: v → PacketFits (cryptoNoneUplink plainConfig deviceA)
      (final (packetStep (cryptoNoneUplink plainConfig deviceA)) (.boot (.boot 0)) u) op := by
    simp only [sentByA, forall_steps_cons (packetStep (cryptoNoneUplink plainConfig deviceA))]
    exact ⟨trivial, trivial, fun _ => by decide, trivial, fun _ => by decide, forall_steps_nil _ _⟩
  exact hall u op v h

theorem sentByA_proper : ∀ op, .other op ∈ sentByA → op.1.Proper plainConfig := by
  intro op hop
  simp only [sentByA, List.mem_cons, ReadOp.other.injEq, reduceCtorEq, List.not_mem_nil, false_or,
    or_false] at hop
  rcases hop with rfl | rfl | rfl
  · refine AppOp.write_proper ⟨fun entry he => ?_, fun o entry ho he => ?_⟩
    · cases he
      decide
    · cases ho
      cases he
      decide
  · exact AppOp.close_proper
  · exact AppOp.process_proper

def blockOfA : Buf := [0, 8, 0xC0, 0, 1, 0, 42, 1, 0x61, 7]

theorem sentByA_messages : deviceA.messages plainConfig sentByA = [plainHeader++blockOfA] := by
  decide

theorem sentByA_all : deviceA.AllSent plainConfig sentByA := by
  rw [PlainDevice.AllSent, AllSent]
  decide

theorem entries_end_to_end_one :
    ∃ calls, handlerCallsAll plainConfig (chrcHanded plainConfig plainDecode (fun _ => true)
        (receivedFromA++handlerRuns 1)) = some calls ∧
      entryCalls calls = [.start 0 pathA 42, .data 0 [7] 1 true] := by
  have hbrings : List.Forall₂ Brings [receivedFromA.filterMap DownlinkChrcOp.packet]
      (deviceA.messages plainConfig sentByA) := by
    rw [sentByA_messages]
    refine .cons ⟨[plainHeader++[0], blockOfA.tail], by decide, rfl, ?_⟩ .nil
    rw [Decodes]
    decide
  have hend := (entries_end_to_end plainConfig deviceA plainDecode (fun _ => true) (by decide)
    (by decide) (plainDecode_header _) (fun _ => rfl) sentByA sentByA_fits sentByA_proper _ hbrings
    receivedFromA (List.prefix_refl _)).2
  rw [sentByA_messages] at hend
  have hexceeds : ∀ message ∈ [plainHeader++blockOfA],
      PouchExceeds plainConfig deviceA.header message := fun message hmessage =>
    List.mem_singleton.mp hmessage ▸ pouchExceeds_one plainConfig (show IsBlock blockOfA by decide)
  obtain ⟨calls, hcalls, hentries⟩ := (hend hexceeds).2 sentByA_all rfl 1 (by decide)
  exact ⟨calls, hcalls, hentries.trans (by decide)⟩

end EndToEnd
end Pouch
