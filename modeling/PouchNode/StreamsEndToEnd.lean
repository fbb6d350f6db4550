import PouchNode.EntriesEndToEnd
import PouchNode.WrittenStreams

/-! Streams from one end to the other, without encryption. -/
namespace Pouch
open Machine Chunks Fragments

section
variable (cfg : Config) (d : PlainDevice) (decode : Buf → Option (EncryptionInfo × Nat))
  (alloc : Nat → Bool)

/-- Streams without encryption, from one end to the other, while no two open streams have the same
id and in no pouch the last two blocks fit into a buffer together. At all times the handlers have
been called under an id for a front part of what is told of the streams that have had it, one
after the other; in the end they have been called for all of that. Of a stream that was closed
while it was valid, with a byte count other than zero, the whole is told, and of any other at most
a front part without an end. -/
theorem streams_end_to_end (hmax : cfg.maxBlockPayloadSize ≤ 32768)
    (hheader : d.header.length ≤ cfg.maxCiphertextBlockSize)
    (hvalid : ValidHeader (cryptoNoneReceiver decode alloc) () d.header)
    (halloc : ∀ n, alloc n = true) (sent : List (ReadOp AppOp))
    (hfits : ∀ u op v, sent = u++op :: v →
      PacketFits (cryptoNoneUplink cfg d) (packetFinal (cryptoNoneUplink cfg d) 0 u) op)
    (hproper : ∀ op, .other op ∈ sent → op.1.Proper cfg)
    (hids : ∀ u v, sent = u++v →
      IdsDistinct (packetFinal (cryptoNoneUplink cfg d) 0 u).ctx.state.writers)
    (packets : List (List Buf))
    (hpackets : List.Forall₂ Brings packets (d.messages cfg sent))
    (hexceeds : ∀ message ∈ d.messages cfg sent, PouchExceeds cfg d.header message)
    (received : List DownlinkChrcOp)
    (hreceived : received.filterMap DownlinkChrcOp.packet <+: packets.flatten) (id : UInt8)
    (hid : id ≠ 0) :
    ∃ told : Nat → List HandlerCall,
      (∀ k, ToldOf cfg k (packetStreamLog (cryptoNoneUplink cfg d) 0 sent k) (told k)) ∧
      (∃ calls, handlerCallsAll cfg (chrcHanded cfg decode alloc received) = some calls ∧
        callsWithId id calls <+: (drawnWithId
          (packetFinal (cryptoNoneUplink cfg d) 0 sent).ctx.state.writers id).flatMap told) ∧
      (d.AllSent cfg sent → received.filterMap DownlinkChrcOp.packet = packets.flatten →
        ∀ n, (chrcPending cfg decode alloc received).length ≤ n →
          ∃ calls, handlerCallsAll cfg (chrcHanded cfg decode alloc (received++handlerRuns n)) =
            some calls ∧
          callsWithId id calls = (drawnWithId
            (packetFinal (cryptoNoneUplink cfg d) 0 sent).ctx.state.writers id).flatMap told) := by
  obtain ⟨uplink, done, hsent⟩ := exists_sent (cryptoNoneUplink cfg d) 0 sent hfits hproper
  obtain ⟨told, htold, hall⟩ := hsent.streams hmax hids hid
  obtain ⟨hahead, hend⟩ :=
    (hsent.handed hmax hheader hvalid halloc hpackets hreceived).2 hexceeds
  refine ⟨told, htold, hsent.told_prefix hmax hall hahead, fun hsentAll hreceivedAll n hn => ?_⟩
  rw [hend hsentAll hreceivedAll n hn]
  exact hsent.told_all hmax hall

end

def streamedByA : List (ReadOp AppOp) :=
  [.other (AppOp.write (.streamOpen pathA 42 true true)),
    .other (AppOp.write (.streamWrite (some 0) [1, 2] fun _ => true)),
    .other (AppOp.write (.streamClose (some 0))), .other AppOp.close, .read true 100 0,
    .other AppOp.process, .read false 100 0]

def streamOfA : Buf := [0, 7, 0xC1, 0, 42, 1, 0x61, 1, 2]

def streamReceived : List DownlinkChrcOp :=
  [.write ([packetFirst]++plainHeader++[0]), .write ([packetLast]++streamOfA.tail)]

theorem streamedByA_fits (u : List (ReadOp AppOp)) (op : ReadOp AppOp) (v : List (ReadOp AppOp))
    (h : streamedByA = u++op :: v) : PacketFits (cryptoNoneUplink plainConfig deviceA)
      (packetFinal (cryptoNoneUplink plainConfig deviceA) 0 u) op := by
  have hall : ∀ u op v, streamedByA = u++op :: v → PacketFits (cryptoNoneUplink plainConfig deviceA)
      (final (packetStep (cryptoNoneUplink plainConfig deviceA)) (.boot (.boot 0)) u) op := by
    simp only [streamedByA, forall_steps_cons (packetStep (cryptoNoneUplink plainConfig deviceA))]
    exact ⟨trivial, trivial, trivial, trivial, fun _ => by decide, trivial, fun _ => by decide,
      forall_steps_nil _ _⟩
  exact hall u op v h

theorem streamedByA_proper : ∀ op, .other op ∈ streamedByA → op.1.Proper plainConfig := by
  intro op hop
  simp only [streamedByA, List.mem_cons, ReadOp.other.injEq, reduceCtorEq, List.not_mem_nil, false_or,
    or_false] at hop
  rcases hop with rfl | rfl | rfl | rfl | rfl
  · exact AppOp.write_proper ⟨⟨by decide, by decide⟩, by simp⟩
  · exact AppOp.write_proper ⟨trivial, by simp⟩
  · exact AppOp.write_proper ⟨trivial, by simp⟩
  · exact AppOp.close_proper
  · exact AppOp.process_proper

theorem streamedByA_ids (u v : List (ReadOp AppOp)) (h : streamedByA = u++v) :
    IdsDistinct (packetFinal (cryptoNoneUplink plainConfig deviceA) 0 u).ctx.state.writers :=
  idsDistinct_of_few streamedByA_fits streamedByA_proper (by decide) u v h

theorem streamedByA_messages :
    deviceA.messages plainConfig streamedByA = [plainHeader++streamOfA] := by
  decide

theorem streamedByA_all : deviceA.AllSent plainConfig streamedByA := by
  rw [PlainDevice.AllSent, AllSent]
  decide

theorem streams_end_to_end_one :
    ∃ calls, handlerCallsAll plainConfig (chrcHanded plainConfig plainDecode (fun _ => true)
        (streamReceived++handlerRuns 1)) = some calls ∧
      Delivered 1 pathA 42 [1, 2] (callsWithId 1 calls) := by
  have hbrings : List.Forall₂ Brings [streamReceived.filterMap DownlinkChrcOp.packet]
      (deviceA.messages plainConfig streamedByA) := by
    rw [streamedByA_messages]
    refine .cons ⟨[plainHeader++[0], streamOfA.tail], by decide, rfl, ?_⟩ .nil
    rw [Decodes]
    decide
  have hexceeds : ∀ message ∈ deviceA.messages plainConfig streamedByA,
      PouchExceeds plainConfig deviceA.header message := by
    rw [streamedByA_messages]
    exact fun message hmessage =>
      List.mem_singleton.mp hmessage ▸ pouchExceeds_one plainConfig (show IsBlock streamOfA by decide)
  obtain ⟨told, htold, -, hend⟩ := streams_end_to_end plainConfig deviceA plainDecode
    (fun _ => true) (by decide) (by decide) (plainDecode_header _) (fun _ => rfl) streamedByA
    streamedByA_fits streamedByA_proper streamedByA_ids _ hbrings hexceeds streamReceived
    (List.prefix_refl _) 1 (by decide)
  obtain ⟨calls, hcalls, hids⟩ := hend streamedByA_all rfl 1 (by decide)
  refine ⟨calls, hcalls, ?_⟩
  have hlog : packetStreamLog (cryptoNoneUplink plainConfig deviceA) 0 streamedByA 0 =
      some ⟨pathA, 42, 0, [1, 2], true⟩ := by decide
  have hdrawn : drawnWithId (packetFinal (cryptoNoneUplink plainConfig deviceA) 0
      streamedByA).ctx.state.writers 1 = [0] := by decide
  have hstream := htold 0
  rw [hlog] at hstream
  rw [hids, hdrawn, List.flatMap_singleton]
  exact hstream

end Pouch
