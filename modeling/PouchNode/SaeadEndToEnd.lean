import PouchNode.CryptoSaead
import PouchNode.WrittenStreams

/-! From the writers of a device under SAEAD to a peer that knows the secret. -/
namespace Pouch
open Machine
variable {K : Type*}

theorem ClosedBlock.plain {cfg : Config} (hmax : cfg.maxBlockPayloadSize ≤ 32768) {b : Buf}
    (h : ClosedBlock cfg b) : PlainBlock cfg b := by
  have hblock : b.length = 2 + Octets.getBe16 b := (h.wellFormed hmax).isBlock
  obtain ⟨byte, p, rfl, hp⟩ := h
  rw [length_closedBlock] at hblock
  refine ⟨?_, ?_, ?_⟩
  · rw [length_closedBlock]
    omega
  · rw [length_closedBlock]
    omega
  · rw [length_closedBlock, Config.maxPlaintextBlockSize]
    omega

def SaeadDevice.NeverShort (d : SaeadDevice K) : Prop :=
  (∀ n, (d.start n).2.derives = true) ∧ ∀ n, d.alloc n = true

section
variable (cfg : Config) (d : SaeadDevice K)

abbrev OpensAll (messages : List Buf) (opened : List (List Buf)) : Prop :=
  List.Forall₂ (OpensTo cfg d) messages opened

/-- What a peer opens is of the blocks that the writers have given away, in their order. -/
theorem Sent.opened {sent : List (ReadOp AppOp)} {calls : List UplinkOp}
    {done : List (UplinkPouch (cryptoSaeadUplink cfg d))}
    (h : Sent (cryptoSaeadUplink cfg d) .boot sent calls done) (hmode : cfg.encryption = .saead)
    (hmax : cfg.maxBlockPayloadSize ≤ 32768) :
    ∃ opened : List (List Buf),
      OpensAll cfg d (sentMessages (cryptoSaeadUplink cfg d) .boot sent) opened ∧
      opened.flatten.Sublist (givenBlocks (cryptoSaeadUplink cfg d) .boot calls) ∧
      (d.NeverShort →
        opened.flatten <+: givenBlocks (cryptoSaeadUplink cfg d) .boot calls ∧
        (AllSent (cryptoSaeadUplink cfg d) .boot sent →
          opened.flatten = givenBlocks (cryptoSaeadUplink cfg d) .boot calls)) := by
  have hplain (p : UplinkPouch (cryptoSaeadUplink cfg d)) (hp : p ∈ done) :
      ∀ b ∈ p.blocks, PlainBlock cfg b := fun b hb =>
    (h.closed b (h.front.subset (List.mem_flatMap.mpr ⟨p, hp, hb⟩))).plain hmax
  have hopens : ∃ opened : List (List Buf),
      OpensAll cfg d (done.map UplinkPouch.bytes) opened ∧
      opened.flatten.Sublist (done.flatMap UplinkPouch.blocks) ∧
      (d.NeverShort → opened.flatten = done.flatMap UplinkPouch.blocks) := by
    clear h
    induction done with
    | nil => exact ⟨[], .nil, List.Sublist.refl _, fun _ => rfl⟩
    | cons p done ih =>
      obtain ⟨hp, hdone⟩ := List.forall_mem_cons.mp hplain
      obtain ⟨opened, hall, hsub, heq⟩ := ih hdone
      obtain ⟨first, hfirst, hfirstSub, hfirstEq⟩ := p.saead_opens hmode hmax hp
      refine ⟨first :: opened, .cons hfirst hall, ?_, fun hn => ?_⟩
      · rw [List.flatten_cons, List.flatMap_cons]
        exact hfirstSub.append hsub
      · rw [List.flatten_cons, List.flatMap_cons, heq hn, hfirstEq hn.1 hn.2]
  obtain ⟨opened, hall, hsub, heq⟩ := hopens
  refine ⟨opened, h.messages ▸ hall, hsub.trans h.front.sublist, fun hn => ⟨?_, fun hsent => ?_⟩⟩
  · rw [heq hn]
    exact h.front
  · rw [heq hn, h.all hsent]

/-- SAEAD, from the writers to a peer that knows the secret. The device writes entries and streams
and is read in packets, and random numbers, keys, headers and buffers may fail whenever. Each message
that the peer gets is nothing, or a header and blocks that it can open with the key of the
session that the header names; the entries in what it has opened were written, in their order and
none of them twice. If keys and buffers never fail none is left out either, and when everything has
been sent these are all entries. -/
theorem saead_entries_opened (hmode : cfg.encryption = .saead)
    (hmax : cfg.maxBlockPayloadSize ≤ 32768) (sent : List (ReadOp AppOp))
    (hfits : ∀ u op v, sent = u++op :: v → PacketFits (cryptoSaeadUplink cfg d)
      (packetFinal (cryptoSaeadUplink cfg d) .boot u) op)
    (hproper : ∀ op, .other op ∈ sent → op.1.Proper cfg) :
    ∃ opened : List (List Buf),
      OpensAll cfg d (sentMessages (cryptoSaeadUplink cfg d) .boot sent) opened ∧
      (∃ entries : List PouchEntry,
        entries.Sublist (packetEntries (cryptoSaeadUplink cfg d) .boot sent) ∧
        HandsEntries cfg opened.flatten entries) ∧
      (d.NeverShort →
        (∃ entries, entries <+: packetEntries (cryptoSaeadUplink cfg d) .boot sent ∧
          HandsEntries cfg opened.flatten entries) ∧
        (AllSent (cryptoSaeadUplink cfg d) .boot sent →
          HandsEntries cfg opened.flatten (packetEntries (cryptoSaeadUplink cfg d) .boot sent))) := by
  obtain ⟨uplink, done, hsent⟩ := exists_sent (cryptoSaeadUplink cfg d) .boot sent hfits hproper
  obtain ⟨opened, hall, hsub, hexact⟩ := hsent.opened cfg d hmode hmax
  refine ⟨opened, hall, hsent.entries_sublist hmax hsub, fun hn => ?_⟩
  obtain ⟨hfront, hwhole⟩ := hexact hn
  refine ⟨hsent.entries_prefix hmax hfront, fun hsentAll => ?_⟩
  rw [hwhole hsentAll]
  exact hsent.entries_all hmax hsentAll

/-- Streams under SAEAD, while no two open streams have the same id and keys and buffers never fail:
what the peer has opened tells, under an id, a front part of what is told of the streams that have
had it, one after the other, and in the end all of that. Of a stream that was closed while it was
valid, with a byte count other than zero, the whole is told, and of any other at most a front part
without an end. -/
theorem saead_streams_opened (hmode : cfg.encryption = .saead)
    (hmax : cfg.maxBlockPayloadSize ≤ 32768) (hshort : d.NeverShort) (sent : List (ReadOp AppOp))
    (hfits : ∀ u op v, sent = u++op :: v → PacketFits (cryptoSaeadUplink cfg d)
      (packetFinal (cryptoSaeadUplink cfg d) .boot u) op)
    (hproper : ∀ op, .other op ∈ sent → op.1.Proper cfg)
    (hids : ∀ u v, sent = u++v →
      IdsDistinct (packetFinal (cryptoSaeadUplink cfg d) .boot u).ctx.state.writers)
    (id : UInt8) (hid : id ≠ 0) :
    ∃ (opened : List (List Buf)) (told : Nat → List HandlerCall),
      OpensAll cfg d (sentMessages (cryptoSaeadUplink cfg d) .boot sent) opened ∧
      (∀ j, ToldOf cfg j (packetStreamLog (cryptoSaeadUplink cfg d) .boot sent j) (told j)) ∧
      (∃ calls, handlerCallsAll cfg opened.flatten = some calls ∧ callsWithId id calls <+:
        (drawnWithId (packetFinal (cryptoSaeadUplink cfg d) .boot sent).ctx.state.writers
          id).flatMap told) ∧
      (AllSent (cryptoSaeadUplink cfg d) .boot sent →
        ∃ calls, handlerCallsAll cfg opened.flatten = some calls ∧ callsWithId id calls =
          (drawnWithId (packetFinal (cryptoSaeadUplink cfg d) .boot sent).ctx.state.writers
            id).flatMap told) := by
  obtain ⟨uplink, done, hsent⟩ := exists_sent (cryptoSaeadUplink cfg d) .boot sent hfits hproper
  obtain ⟨opened, hall, -, hexact⟩ := hsent.opened cfg d hmode hmax
  obtain ⟨told, htold, hgiven⟩ := hsent.streams hmax hids hid
  obtain ⟨hfront, hwhole⟩ := hexact hshort
  refine ⟨opened, told, hall, htold, hsent.told_prefix hmax hgiven hfront, fun hsentAll => ?_⟩
  rw [hwhole hsentAll]
  exact hsent.told_all hmax hgiven

end

theorem gcm_aead : PsaAlgorithm.Aead .gcm := Or.inr rfl

def sealingDevice : SaeadDevice Unit where
  algorithm := .gcm
  selected := gcm_aead
  scheme := tagging
  derive _ := ()
  certRef := some (Vector.replicate 6 0x72)
  encode := shortestEncoder
  canonical := shortestEncoder_canonical
  start _ := (firstRandom, firstKeys)
  headerAlloc _ := true
  alloc _ := true

abbrev sealingCrypto : CryptoOps saeadConfig (SealingCrypto Unit) :=
  cryptoSaeadUplink saeadConfig sealingDevice

def sealedRun : List (ReadOp AppOp) :=
  [.other (AppOp.write (.entry (.write (some pathA) 42 (some [7]) .ok true))),
    .other (AppOp.write (.streamOpen pathA 42 true true)),
    .other (AppOp.write (.streamWrite (some 0) [1, 2] fun _ => true)),
    .other (AppOp.write (.streamClose (some 0))), .other AppOp.close, .read true 20 0,
    .other AppOp.process, .read false 40 0, .read false 100 0]

theorem sealedRun_fits (u : List (ReadOp AppOp)) (op : ReadOp AppOp) (v : List (ReadOp AppOp))
    (h : sealedRun = u++op :: v) : PacketFits sealingCrypto (packetFinal sealingCrypto .boot u) op := by
  have hall : ∀ u op v, sealedRun = u++op :: v → PacketFits sealingCrypto
      (final (packetStep sealingCrypto) (.boot (.boot .boot)) u) op := by
    simp only [sealedRun, forall_steps_cons (packetStep sealingCrypto)]
    exact ⟨trivial, trivial, trivial, trivial, trivial, fun _ => by decide, trivial,
      fun _ => by decide, fun _ => by decide, forall_steps_nil _ _⟩
  exact hall u op v h

theorem sealedRun_proper : ∀ op, .other op ∈ sealedRun → op.1.Proper saeadConfig := by
  intro op hop
  simp only [sealedRun, List.mem_cons, ReadOp.other.injEq, reduceCtorEq, List.not_mem_nil, false_or,
    or_false] at hop
  rcases hop with rfl | rfl | rfl | rfl | rfl | rfl
  · refine AppOp.write_proper ⟨fun entry he => ?_, fun o entry ho he => ?_⟩
    · cases he
      decide
    · cases ho
      cases he
      decide
  · exact AppOp.write_proper ⟨⟨by decide, by decide⟩, by simp⟩
  · exact AppOp.write_proper ⟨trivial, by simp⟩
  · exact AppOp.write_proper ⟨trivial, by simp⟩
  · exact AppOp.close_proper
  · exact AppOp.process_proper

theorem sealedRun_all : AllSent sealingCrypto .boot sealedRun := by
  rw [AllSent]
  decide

theorem sealingDevice_neverShort : sealingDevice.NeverShort := ⟨fun _ => rfl, fun _ => rfl⟩

theorem saead_entries_opened_one :
    ∃ opened, OpensAll saeadConfig sealingDevice (sentMessages sealingCrypto .boot sealedRun) opened ∧
      ∃ calls, handlerCallsAll saeadConfig opened.flatten = some calls ∧
        entryCalls calls = [.start 0 pathA 42, .data 0 [7] 1 true] := by
  obtain ⟨opened, hopens, -, hexact⟩ := saead_entries_opened saeadConfig sealingDevice rfl (by decide)
    sealedRun sealedRun_fits sealedRun_proper
  obtain ⟨calls, hcalls, hentries⟩ := (hexact sealingDevice_neverShort).2 sealedRun_all
  exact ⟨opened, hopens, calls, hcalls, hentries.trans (by decide)⟩

theorem saead_streams_opened_one :
    ∃ opened, OpensAll saeadConfig sealingDevice (sentMessages sealingCrypto .boot sealedRun) opened ∧
      ∃ calls, handlerCallsAll saeadConfig opened.flatten = some calls ∧
        Delivered 1 pathA 42 [1, 2] (callsWithId 1 calls) := by
  have hids := idsDistinct_of_few sealedRun_fits sealedRun_proper (by decide)
  obtain ⟨opened, told, hopens, htold, -, hend⟩ := saead_streams_opened saeadConfig sealingDevice rfl
    (by decide) sealingDevice_neverShort sealedRun sealedRun_fits sealedRun_proper hids 1 (by decide)
  obtain ⟨calls, hcalls, hwithId⟩ := hend sealedRun_all
  refine ⟨opened, hopens, calls, hcalls, ?_⟩
  have hlog : packetStreamLog sealingCrypto .boot sealedRun 0 = some ⟨pathA, 42, 0, [1, 2], true⟩ := by
    decide
  have hdrawn : drawnWithId (packetFinal sealingCrypto .boot sealedRun).ctx.state.writers 1 = [0] := by
    decide
  have hstream := htold 0
  rw [hlog] at hstream
  rw [hwithId, hdrawn, List.flatMap_singleton]
  exact hstream

end Pouch
