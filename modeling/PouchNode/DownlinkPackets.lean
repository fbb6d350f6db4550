import PouchNode.DownlinkCharacteristic

/-! Pouches that come in packets: what the downlink characteristic makes of them, whatever the
packets' sizes and whenever the handlers run. -/
namespace Pouch
open Machine Fragments
variable {κ ι : Type*} {cfg : Config}

structure Brings (packets : List Buf) (message : Buf) : Prop where
  pieces : ∃ chunks : List Buf, chunks ≠ [] ∧ chunks.flatten = message ∧
    Decodes packets (fragments true chunks)

theorem brings_drain {α σ ε : Type*} {cb : FillCallback α σ ε} {s : σ} {sizes : List Nat} {src : Buf}
    {packets : List (Buf × Nat)} (hsizes : ∀ size ∈ sizes, packetOverhead < size)
    (h : packetizerDrain cb ⟨.buffer src, true, none⟩ s sizes = some packets) :
    Brings (packets.map Prod.fst) src := by
  obtain ⟨chunks, hcut, hcarries⟩ := drain_cut h
  exact ⟨chunks, hcut.ne_nil, (hcut.pieces hsizes).flatten, hcarries.decodes⟩

section
variable {env : DownlinkEnv κ ι}

theorem decodes_cons {packets : List Buf} {f : Fragment UInt8} {fs : List (Fragment UInt8)}
    (h : Decodes packets (f :: fs)) : ∃ packet rest, packets = packet :: rest ∧
      packetizerDecode packet = some (f.payload, f.first, f.last) ∧ Decodes rest fs := by
  cases packets with
  | nil => simp [Decodes] at h
  | cons packet rest =>
    rw [Decodes, List.map_cons, List.map_cons, List.cons.injEq] at h
    exact ⟨packet, rest, rfl, h⟩

theorem writtenAlone_rest (s : Downlink κ) {packets chunks : List Buf}
    (h : Decodes packets (fragments false chunks)) :
    writtenAlone cfg env s packets = pouchDownlinkPushAll cfg env s chunks := by
  induction chunks generalizing s packets with
  | nil =>
    obtain rfl := List.map_eq_nil_iff.mp h
    rfl
  | cons chunk chunks ih =>
    rw [fragments_cons] at h
    obtain ⟨packet, rest, rfl, hdecode, hrest⟩ := decodes_cons h
    have hwrite : (downlinkWrite cfg env packet s).2 = pouchDownlinkPush cfg env s chunk := by
      simp [downlinkWrite, hdecode, pouchDownlinkFinish]
    exact (congrArg (writtenAlone cfg env · rest) hwrite).trans (ih _ hrest)

theorem writtenAlone_pouch (s : Downlink κ) {packets chunks : List Buf} (hne : chunks ≠ [])
    (h : Decodes packets (fragments true chunks)) :
    writtenAlone cfg env s packets =
      pouchDownlinkPushAll cfg env (pouchDownlinkStart env s) chunks := by
  cases chunks with
  | nil => exact absurd rfl hne
  | cons chunk chunks =>
    rw [fragments_cons] at h
    obtain ⟨packet, rest, rfl, hdecode, hrest⟩ := decodes_cons h
    have hwrite : (downlinkWrite cfg env packet s).2 =
        pouchDownlinkPush cfg env (pouchDownlinkStart env s) chunk := by
      simp [downlinkWrite, hdecode, pouchDownlinkFinish]
    exact (congrArg (writtenAlone cfg env · rest) hwrite).trans (writtenAlone_rest _ hrest)

theorem writtenAlone_queue (s : Downlink κ) (packets : List Buf) :
    s.decrypt.queue <+: (writtenAlone cfg env s packets).decrypt.queue := by
  induction packets generalizing s with
  | nil => exact List.prefix_refl _
  | cons packet packets ih =>
    obtain ⟨blocks, hframe⟩ := downlinkWrite_frames cfg env packet s
    have hself := congrArg (fun r => r.2.decrypt.queue) (hframe s.decrypt s.consume)
    have hqueue : (downlinkWrite cfg env packet s).2.decrypt.queue = s.decrypt.queue++blocks :=
      hself.trans (s.decrypt.submitAll_queue blocks)
    exact ((List.prefix_append _ _).trans (by rw [← hqueue])).trans
      (ih (downlinkWrite cfg env packet s).2)

structure PouchFor (cfg : Config) (env : DownlinkEnv Unit ι) (message : Buf) (blocks : List Buf) :
    Prop where
  wellFormed : ∀ b ∈ blocks, WellFormedBlock cfg b
  message : message = [] ∧ blocks = [] ∨ ∃ header, ValidHeader env () header ∧
    header.length ≤ cfg.maxCiphertextBlockSize ∧ message = header++blocks.flatten

/-- Where the last two blocks do not fit together, those of a last pass are one at most. -/
theorem LastPairExceeds.last_pass {blocks done cs : List Buf} (h : LastPairExceeds cfg blocks)
    (hsplit : blocks = done++cs) (hfit : cs.flatten.length ≤ cfg.maxCiphertextBlockSize) :
    cs.take 1 = cs := by
  refine List.take_of_length_le (Nat.le_of_not_lt fun htwo => ?_)
  obtain ⟨u, c, rfl⟩ := (List.eq_nil_or_concat' cs).resolve_left (by
    rintro rfl
    simp at htwo)
  obtain ⟨v, b, rfl⟩ := (List.eq_nil_or_concat' u).resolve_left (by
    rintro rfl
    simp at htwo)
  have hexceeds := h (done++v) b c (by simp [hsplit])
  simp only [List.flatten_append, List.length_append, List.flatten_cons, List.flatten_nil,
    List.append_nil] at hfit
  omega

theorem pushAll_nothing (s : Downlink κ) {chunks : List Buf} (h : chunks.flatten = []) :
    pouchDownlinkPushAll cfg env s chunks = s := by
  induction chunks with
  | nil => rfl
  | cons chunk chunks ih =>
    obtain ⟨rfl, hrest⟩ := List.append_eq_nil_iff.mp h
    exact ih hrest

end

section
variable {env : DownlinkEnv Unit ι}

/-- Of a pouch that has come in packets the blocks are queued, or the first of them if the last
two fit together. -/
theorem writtenAlone_blocks (halloc : ∀ n, env.bufAlloc n = true) (s : Downlink Unit)
    {packets : List Buf} {message : Buf} {blocks : List Buf} (hbrings : Brings packets message)
    (hpouch : PouchFor cfg env message blocks) :
    ∃ kept, kept <+: blocks ∧ (LastPairExceeds cfg blocks → kept = blocks) ∧
      (writtenAlone cfg env s packets).decrypt.queue = s.decrypt.queue++kept := by
  obtain ⟨chunks, hne, hflat, hdecodes⟩ := hbrings.pieces
  rw [writtenAlone_pouch s hne hdecodes]
  rcases hpouch.message with ⟨rfl, rfl⟩ | ⟨header, hvalid, hlen, rfl⟩
  · refine ⟨[], List.nil_prefix, fun _ => rfl, ?_⟩
    rw [pushAll_nothing _ hflat, List.append_nil]
    rfl
  · obtain ⟨done, cs, hsplit, hfit, -, -, hqueue⟩ :=
      pushAll_end (s := s) hvalid hlen halloc hpouch.wellFormed hflat
    refine ⟨done++cs.take 1, ?_, fun hlast => ?_, hqueue⟩
    · rw [hsplit]
      exact (List.prefix_append_right_inj done).mpr (List.take_prefix 1 cs)
    · rw [hlast.last_pass hsplit hfit, hsplit]

structure PacketPouch (cfg : Config) (env : DownlinkEnv Unit ι) where
  packets : List Buf
  blocks : List Buf
  message : Buf
  brings : Brings packets message
  pouch : PouchFor cfg env message blocks

/-- Of every pouch a front part of the blocks is queued, pouch after pouch. -/
theorem writtenAlone_pouches (halloc : ∀ n, env.bufAlloc n = true) (s : Downlink Unit)
    (pouches : List (PacketPouch cfg env)) :
    ∃ kept, kept.Sublist (pouches.flatMap PacketPouch.blocks) ∧
      ((∀ p ∈ pouches, LastPairExceeds cfg p.blocks) →
        kept = pouches.flatMap PacketPouch.blocks) ∧
      (writtenAlone cfg env s (pouches.flatMap PacketPouch.packets)).decrypt.queue =
        s.decrypt.queue++kept := by
  induction pouches generalizing s with
  | nil => exact ⟨[], List.Sublist.refl [], fun _ => rfl, (List.append_nil _).symm⟩
  | cons p pouches ih =>
    obtain ⟨kept, hfront, hall, hqueue⟩ := writtenAlone_blocks halloc s p.brings p.pouch
    obtain ⟨more, hsub, hrest, hmore⟩ := ih (writtenAlone cfg env s p.packets)
    refine ⟨kept++more, hfront.sublist.append hsub, fun hlast => ?_, ?_⟩
    · rw [hall (hlast p List.mem_cons_self),
        hrest fun q hq => hlast q (List.mem_cons_of_mem _ hq), List.flatMap_cons]
    · rw [List.flatMap_cons, writtenAlone_append, hmore, hqueue, List.append_assoc]

end

section
variable (cfg) (decode : Buf → Option (EncryptionInfo × Nat)) (alloc : Nat → Bool)

theorem decrypt_moves {s : Downlink Unit} (h : s.decrypt.Armed) :
    (pipelineStep (cryptoNoneReceiver decode alloc) s .decrypt).1.decrypt.Armed ∧
    (pipelineStep (cryptoNoneReceiver decode alloc) s .decrypt).1.decrypt.queue =
      s.decrypt.queue.tail ∧
    (pipelineStep (cryptoNoneReceiver decode alloc) s .decrypt).1.consume.queue =
      s.consume.queue++s.decrypt.queue.take 1 := by
  cases hp : s.decrypt.pending with
  | false => simp [pipelineStep, hp, h, h.queue_eq_nil hp]
  | true =>
    obtain ⟨b, queue, hq⟩ := h.queue_eq_cons hp
    simp [pipelineStep, hp, decryptBlocks_plain hq, hq, WorkQueue.Armed, WorkQueue.submit,
      bufQueueSubmit]

theorem consume_moves {s : Downlink Unit} (h : s.consume.Armed) :
    (pipelineStep (cryptoNoneReceiver decode alloc) s .consume).1.consume.Armed ∧
    (pipelineStep (cryptoNoneReceiver decode alloc) s .consume).1.consume.queue =
      s.consume.queue.tail ∧
    (pipelineStep (cryptoNoneReceiver decode alloc) s .consume).1.decrypt = s.decrypt := by
  cases hp : s.consume.pending with
  | false => simp [pipelineStep, hp, h, h.queue_eq_nil hp]
  | true =>
    obtain ⟨b, queue, hq⟩ := h.queue_eq_cons hp
    simp [pipelineStep, hp, consumeBlocks, bufQueueGet, hq, WorkQueue.Armed]

theorem decrypts_move {s : Downlink Unit} (h : s.decrypt.Armed) (n : Nat) :
    (final (downlinkChrcStep cfg (cryptoNoneReceiver decode alloc)) s
      (List.replicate n .decrypt)).decrypt.queue = s.decrypt.queue.drop n ∧
    (final (downlinkChrcStep cfg (cryptoNoneReceiver decode alloc)) s
      (List.replicate n .decrypt)).consume.queue = s.consume.queue++s.decrypt.queue.take n := by
  induction n generalizing s with
  | zero => simp
  | succ n ih =>
    obtain ⟨harmed, hqueue, hmoved⟩ := decrypt_moves decode alloc h
    obtain ⟨hdrop, htake⟩ := ih harmed
    rw [List.replicate_succ, final_cons, downlinkChrcStep]
    rw [hqueue] at hdrop htake
    rw [hdrop, htake, hmoved]
    cases s.decrypt.queue with
    | nil => simp
    | cons b queue => simp

theorem consumes_move {s : Downlink Unit} (h : s.consume.Armed) (n : Nat) :
    (final (downlinkChrcStep cfg (cryptoNoneReceiver decode alloc)) s
      (List.replicate n .consume)).consume.queue = s.consume.queue.drop n ∧
    (final (downlinkChrcStep cfg (cryptoNoneReceiver decode alloc)) s
      (List.replicate n .consume)).decrypt = s.decrypt := by
  induction n generalizing s with
  | zero => simp
  | succ n ih =>
    obtain ⟨harmed, hqueue, hsame⟩ := consume_moves decode alloc h
    obtain ⟨hdrop, hrest⟩ := ih harmed
    rw [List.replicate_succ, final_cons, downlinkChrcStep, hrest, hsame, hdrop, hqueue]
    cases s.consume.queue with
    | nil => simp
    | cons b queue => simp

end

def handlerRuns (n : Nat) : List DownlinkChrcOp :=
  List.replicate n .decrypt++List.replicate n .consume

theorem handlerRuns_packets (n : Nat) : (handlerRuns n).filterMap DownlinkChrcOp.packet = [] := by
  simp [handlerRuns, List.filterMap_append, List.filterMap_replicate, DownlinkChrcOp.packet]

section
variable (cfg : Config) (decode : Buf → Option (EncryptionInfo × Nat)) (alloc : Nat → Bool)

def chrcPending (ops : List DownlinkChrcOp) : List Buf :=
  (chrcReceiverFinal cfg decode alloc ops).consume.queue++
    (chrcReceiverFinal cfg decode alloc ops).decrypt.queue

theorem chrcHanded_pending (ops : List DownlinkChrcOp) :
    chrcHanded cfg decode alloc ops++chrcPending cfg decode alloc ops =
      (receiverAlone cfg decode alloc ops).decrypt.queue := by
  obtain ⟨tr, hfifo, hhanded, hpushed⟩ := (runsAlone cfg decode alloc ops).fifo
  rw [← hpushed, ← hhanded, chrcPending, ← List.append_assoc]
  exact hfifo.order

theorem chrcPending_nil (ops : List DownlinkChrcOp) {n : Nat}
    (hn : (chrcPending cfg decode alloc ops).length ≤ n) :
    chrcPending cfg decode alloc (ops++handlerRuns n) = [] := by
  obtain ⟨tr, hfifo, -, -⟩ := (runsAlone cfg decode alloc ops).fifo
  obtain ⟨tr', hfifo', -, -⟩ := (runsAlone cfg decode alloc (ops++List.replicate n .decrypt)).fifo
  have hmoved := decrypts_move cfg decode alloc hfifo.decrypt n
  rw [← final_append] at hmoved
  have hhanded := consumes_move cfg decode alloc hfifo'.consume n
  rw [← final_append] at hhanded
  rw [chrcPending, List.length_append] at hn
  rw [handlerRuns, ← List.append_assoc, chrcPending, chrcReceiverFinal, hhanded.1, hhanded.2,
    chrcReceiverFinal, hmoved.1, hmoved.2,
    List.drop_eq_nil_of_le (by rw [List.length_append, List.length_take]; omega),
    List.drop_eq_nil_of_le (by omega)]
  rfl

theorem chrcHanded_runs (ops : List DownlinkChrcOp) {n : Nat}
    (hn : (chrcPending cfg decode alloc ops).length ≤ n) :
    chrcHanded cfg decode alloc (ops++handlerRuns n) =
      chrcHanded cfg decode alloc ops++chrcPending cfg decode alloc ops := by
  have hfinal := chrcHanded_pending cfg decode alloc (ops++handlerRuns n)
  rw [chrcPending_nil cfg decode alloc ops hn, List.append_nil] at hfinal
  rw [hfinal, chrcHanded_pending, receiverAlone, receiverAlone, List.filterMap_append,
    handlerRuns_packets, List.append_nil]

/-- What has been handed over, and then what is pending, is from the pouches, front first. -/
theorem chrcReceived (halloc : ∀ n, alloc n = true)
    (pouches : List (PacketPouch cfg (cryptoNoneReceiver decode alloc)))
    (ops : List DownlinkChrcOp)
    (hops : ops.filterMap DownlinkChrcOp.packet <+: pouches.flatMap PacketPouch.packets) :
    ∃ kept, kept.Sublist (pouches.flatMap PacketPouch.blocks) ∧
      ((∀ p ∈ pouches, LastPairExceeds cfg p.blocks) →
        kept = pouches.flatMap PacketPouch.blocks) ∧
      chrcHanded cfg decode alloc ops++chrcPending cfg decode alloc ops <+: kept ∧
      (ops.filterMap DownlinkChrcOp.packet = pouches.flatMap PacketPouch.packets →
        chrcHanded cfg decode alloc ops++chrcPending cfg decode alloc ops = kept) := by
  obtain ⟨kept, hsub, hall, hqueue⟩ := writtenAlone_pouches halloc (.boot ()) pouches
  have hboot : (Downlink.boot ()).decrypt.queue = [] := rfl
  rw [hboot, List.nil_append] at hqueue
  rw [chrcHanded_pending, receiverAlone]
  refine ⟨kept, hsub, hall, ?_, fun hwritten => by rw [hwritten, hqueue]⟩
  obtain ⟨rest, hrest⟩ := hops
  rw [← hqueue, ← hrest, writtenAlone_append]
  exact writtenAlone_queue _ rest

/-- In a build without encryption in which buffers can be allocated, pouches come in packets of
any sizes while the handlers run in between, whenever. At no time is a block handed over or
queued that is not from the pouches, or out of turn or twice; no block is missing, if in each
pouch the last two do not fit into the buffer together. Once everything has come, as many runs
of decrypt_blocks and then of consume_blocks as there are blocks hand over what is left. -/
theorem downlink_packets_delivered (halloc : ∀ n, alloc n = true)
    (pouches : List (PacketPouch cfg (cryptoNoneReceiver decode alloc)))
    (ops : List DownlinkChrcOp)
    (hops : ops.filterMap DownlinkChrcOp.packet <+: pouches.flatMap PacketPouch.packets) :
    (chrcHanded cfg decode alloc ops++chrcPending cfg decode alloc ops).Sublist
      (pouches.flatMap PacketPouch.blocks) ∧
    ((∀ p ∈ pouches, LastPairExceeds cfg p.blocks) →
      chrcHanded cfg decode alloc ops++chrcPending cfg decode alloc ops <+:
        pouches.flatMap PacketPouch.blocks ∧
      (ops.filterMap DownlinkChrcOp.packet = pouches.flatMap PacketPouch.packets →
        ∀ n, (chrcPending cfg decode alloc ops).length ≤ n →
          chrcHanded cfg decode alloc (ops++handlerRuns n) =
            pouches.flatMap PacketPouch.blocks)) := by
  obtain ⟨kept, hsub, hall, hfront, hdone⟩ := chrcReceived cfg decode alloc halloc pouches ops hops
  refine ⟨hfront.sublist.trans hsub, fun hlast => ⟨hall hlast ▸ hfront, fun hwritten n hn => ?_⟩⟩
  rw [chrcHanded_runs cfg decode alloc ops hn, hdone hwritten, hall hlast]

end

def plainDecode (raw : Buf) : Option (EncryptionInfo × Nat) :=
  if plainHeader.isPrefixOf raw then some (.plaintext [0x61], plainHeader.length) else none

theorem plainDecode_header (alloc : Nat → Bool) :
    ValidHeader (cryptoNoneReceiver plainDecode alloc) () plainHeader where
  ne_nil := by decide
  short p hp hne := by
    have hno : ¬ plainHeader <+: p := fun h =>
      hne (hp.eq_of_length (Nat.le_antisymm hp.length_le h.length_le))
    simp [cryptoNoneReceiver, plainDecode, hno]
  full := ⟨.plaintext [0x61], by simp [cryptoNoneReceiver, plainDecode], rfl⟩

def plainPouch (block : Buf) (hblock : WellFormedBlock plainConfig block) (packets : List Buf)
    (hbrings : Brings packets (plainHeader++block)) :
    PacketPouch plainConfig (cryptoNoneReceiver plainDecode fun _ => true) where
  packets := packets
  blocks := [block]
  message := plainHeader++block
  brings := hbrings
  pouch := ⟨fun b hb => by rwa [List.mem_singleton.mp hb], Or.inr ⟨plainHeader,
    plainDecode_header _, by decide, by simp⟩⟩

theorem lastPairExceeds_single (block : Buf) : LastPairExceeds plainConfig [block] := by
  intro pre b c h
  have hlen := congrArg List.length h
  simp at hlen

def plainWrites : List DownlinkChrcOp :=
  [.write ([packetFirst]++plainHeader), .write [packetLast, 0, 1, 0xC0], .decrypt,
    .write ([packetFirst ||| packetLast]++plainHeader++[0, 2, 0xC0, 7])]

theorem downlink_packets_delivered_two :
    chrcHanded plainConfig plainDecode (fun _ => true) (plainWrites++handlerRuns 2) =
      [[0, 1, 0xC0], [0, 2, 0xC0, 7]] := by
  have hone : Brings [[packetFirst]++plainHeader, [packetLast, 0, 1, 0xC0]]
      (plainHeader++[0, 1, 0xC0]) := ⟨[plainHeader, [0, 1, 0xC0]], by decide, rfl, rfl⟩
  have htwo : Brings [[packetFirst ||| packetLast]++plainHeader++[0, 2, 0xC0, 7]]
      (plainHeader++[0, 2, 0xC0, 7]) := ⟨[plainHeader++[0, 2, 0xC0, 7]], by decide, rfl, by
    rw [Decodes]
    decide⟩
  let pouches := [plainPouch _ ⟨by decide, by decide, by decide⟩ _ hone,
    plainPouch _ ⟨by decide, by decide, by decide⟩ _ htwo]
  have hlast : ∀ p ∈ pouches, LastPairExceeds plainConfig p.blocks := by
    simp [pouches, plainPouch, lastPairExceeds_single]
  have hdelivered := downlink_packets_delivered plainConfig plainDecode (fun _ => true)
    (fun _ => rfl) pouches plainWrites (List.prefix_refl _)
  exact (hdelivered.2 hlast).2 rfl 2 (by decide)

end Pouch
