import PouchNode.UplinkSaead
import PouchNode.UplinkPull

/-! Streams that outlive their session. pouch_uplink_finish makes them invalid and drops what
is in the transport queue, but the blocks in processing.queue stay where they are. -/
namespace Pouch
open Machine
variable {κ : Type*} {cfg : Config}

structure FromSession (h : Nat) (sessionId : UInt32) (s : Writers) : Prop where
  ids : StreamsInv s.streams
  drawn : h < s.streams.draws
  session : ∀ stream, s.streams.live.lookup h = some stream → stream.sessionId = sessionId

theorem writersStep_draws (s : Writers) (op : WritersOp) :
    s.streams.draws ≤ (writersStep cfg s op).1.streams.draws := by
  cases op with
  | streamOpen path contentType malloc alloc =>
    simp only [writersStep, pouchUplinkStreamOpen]
    split
    · exact Nat.le_refl _
    · split
      · exact Nat.le_refl _
      · split <;> exact Nat.le_succ _
  | streamWrite handle data alloc =>
    simp only [writersStep]
    split <;> exact Nat.le_refl _
  | streamClose handle =>
    simp only [writersStep]
    split <;> exact Nat.le_refl _
  | entry op => exact Nat.le_refl _
  | nextSession => exact Nat.le_refl _

theorem pouchStreamWrite_sessionId (cfg : Config) (sessionId : UInt32) (alloc : Nat → Bool)
    (stream : PouchStream) (data : Buf) :
    (pouchStreamWrite cfg sessionId alloc stream data).2.1.sessionId = stream.sessionId := by
  simp only [pouchStreamWrite]
  split <;> rfl

section
variable {h : Nat} {sessionId : UInt32} {s : Writers}

theorem FromSession.step (hs : FromSession h sessionId s) (op : WritersOp) :
    FromSession h sessionId (writersStep cfg s op).1 where
  ids := (writersStep_streams cfg op hs.ids).1
  drawn := hs.drawn.trans_le (writersStep_draws s op)
  session := by
    by_cases htarget : op.target = some h
    · cases op with
      | streamOpen path contentType malloc alloc => cases htarget
      | streamWrite handle data alloc =>
        cases streamWrite_cases cfg s handle data alloc with
        | inl hnone =>
          rw [hnone]
          exact hs.session
        | inr hopen =>
          obtain ⟨i, stream, hi, hstream, he⟩ := hopen
          obtain rfl : i = h := Option.some.inj (hi.symm.trans htarget)
          rw [he]
          simp only [AList.lookup_insert, Option.some.injEq]
          rintro new rfl
          rw [pouchStreamWrite_sessionId]
          exact hs.session stream hstream
      | streamClose handle =>
        cases streamClose_cases cfg s handle with
        | inl hnone =>
          rw [hnone]
          exact hs.session
        | inr hopen =>
          obtain ⟨i, stream, hi, -, he⟩ := hopen
          obtain rfl : i = h := Option.some.inj (hi.symm.trans htarget)
          rw [he]
          simp only [AList.lookup_erase]
          intro new hnew
          cases hnew
      | entry op => cases htarget
      | nextSession => cases htarget
    · rw [writersStep_elsewhere cfg hs.ids hs.drawn op htarget]
      exact hs.session

theorem FromSession.silent (cfg : Config) (hs : FromSession h sessionId s) (op : WritersOp)
    (htarget : op.target = some h)
    (hinvalid : h ∈ s.streams.live → s.sessionId ≠ sessionId) :
    (writersStep cfg s op).2.enqueued = [] := by
  have hstream : ∀ stream, s.streams.live.lookup h = some stream →
      pouchStreamIsValid s.sessionId stream = false := by
    intro stream hi
    have hne := hinvalid (AList.lookup_isSome.mp (by simp [hi]))
    simp [pouchStreamIsValid, hs.session stream hi, hne.symm]
  cases op with
  | streamOpen path contentType malloc alloc => rfl
  | streamWrite handle data alloc =>
    cases streamWrite_cases cfg s handle data alloc with
    | inl hnone => rw [hnone]
    | inr hopen =>
      obtain ⟨i, stream, hi, hlive, he⟩ := hopen
      obtain rfl : i = h := Option.some.inj (hi.symm.trans htarget)
      rw [he]
      simp [pouchStreamWrite, hstream stream hlive]
  | streamClose handle =>
    cases streamClose_cases cfg s handle with
    | inl hnone => rw [hnone]
    | inr hopen =>
      obtain ⟨i, stream, hi, hlive, he⟩ := hopen
      obtain rfl : i = h := Option.some.inj (hi.symm.trans htarget)
      rw [he]
      simp [pouchStreamClose, hstream stream hlive]
  | entry op => cases htarget
  | nextSession => rfl

end

structure Owned (κ : Type*) where
  up : Uplink κ
  owners : List (Option Nat)

def Owned.boot (k : κ) : Owned κ := ⟨.boot k, []⟩

def UplinkOp.stepsId : UplinkOp → Bool
  | .finish => true
  | .write .nextSession => true
  | _ => false

def idSteps (ops : List UplinkOp) : Nat := ops.countP UplinkOp.stepsId

section
variable (crypto : CryptoOps cfg κ)

/- The output says whose blocks were taken from processing.queue and what was put into the
   transport queue for them. -/
def ownedStep (w : Owned κ) (op : UplinkOp) : Owned κ × List (Option Nat × Option Buf) :=
  let (up, out) := uplinkStep crypto w.up op
  (⟨up, w.owners.drop out.taken.length++out.enqueued.map fun _ => op.stream⟩,
    w.owners.zip (out.taken.map Prod.snd))

abbrev ownedFinal : Owned κ → List UplinkOp → Owned κ := final (ownedStep crypto)

def Sends (h : Nat) (w : Owned κ) (ops : List UplinkOp) : Prop :=
  ∃ e ∈ trace (ownedStep crypto) w ops, ∃ b ∈ e.output, b.1 = some h ∧ b.2.isSome

instance (h : Nat) (w : Owned κ) (ops : List UplinkOp) : Decidable (Sends crypto h w ops) :=
  inferInstanceAs (Decidable (∃ e ∈ trace (ownedStep crypto) w ops, _))

@[simp] theorem ownedStep_up (w : Owned κ) (op : UplinkOp) :
    (ownedStep crypto w op).1.up = (uplinkStep crypto w.up op).1 := rfl

theorem ownedStep_owners (w : Owned κ) (op : UplinkOp) :
    (ownedStep crypto w op).1.owners = w.owners.drop (uplinkStep crypto w.up op).2.taken.length++
      (uplinkStep crypto w.up op).2.enqueued.map fun _ => op.stream := rfl

/-- A block of the stream is moved exactly if a run of process_blocks takes it from
processing.queue and submits what it is encrypted to. -/
theorem sends_iff (h : Nat) (w : Owned κ) (ops : List UplinkOp) :
    Sends crypto h w ops ↔ ∃ u v, ops = u++.process :: v ∧ ∃ block encrypted,
      (some h, block, some encrypted) ∈ (ownedFinal crypto w u).owners.zip
        (uplinkStep crypto (ownedFinal crypto w u).up .process).2.taken ∧
      Submits crypto (ownedFinal crypto w u).up .process block encrypted := by
  have hout : ∀ (t : Owned κ) (op : UplinkOp), (ownedStep crypto t op).2 =
      (t.owners.zip (uplinkStep crypto t.up op).2.taken).map (Prod.map id Prod.snd) :=
    fun t op => List.zip_map_right
  constructor
  · rintro ⟨e, he, ⟨owner, result⟩, hb, rfl, hsome⟩
    obtain ⟨u, op, v, hsplit, rfl⟩ := mem_trace _ he
    rw [event, hout] at hb
    obtain ⟨⟨owner, block, result⟩, hmem, hpair⟩ := List.mem_map.mp hb
    cases hpair
    obtain ⟨encrypted, rfl⟩ := Option.isSome_iff_exists.mp hsome
    obtain ⟨rfl, hsubmits⟩ := taken_submits crypto (List.of_mem_zip hmem).2
    exact ⟨u, v, hsplit, block, encrypted, hmem, hsubmits⟩
  · rintro ⟨u, v, rfl, block, encrypted, hmem, -⟩
    refine ⟨event (ownedStep crypto) (ownedFinal crypto w u) .process, ?_,
      (some h, some encrypted), ?_, rfl, rfl⟩
    · rw [trace_append]
      exact List.mem_append_right _ List.mem_cons_self
    · rw [event, hout]
      exact List.mem_map_of_mem hmem

theorem taken_or_enqueued (s : Uplink κ) (op : UplinkOp) :
    (uplinkStep crypto s op).2.taken = [] ∨ (uplinkStep crypto s op).2.enqueued = [] := by
  cases op with
  | process => exact Or.inr rfl
  | _ => exact Or.inl rfl

theorem owners_length (k : κ) (ops : List UplinkOp) :
    (ownedFinal crypto (.boot k) ops).owners.length =
      (ownedFinal crypto (.boot k) ops).up.processing.queue.length := by
  apply final_invariant (ownedStep crypto)
    (P := fun w => w.owners.length = w.up.processing.queue.length)
  · intro w op hlen
    have hqueue := congrArg List.length (uplinkStep_queue crypto w.up op)
    simp only [List.length_append, List.length_map] at hqueue
    simp only [ownedStep, List.length_append, List.length_drop, List.length_map]
    cases taken_or_enqueued crypto w.up op with
    | inl htaken =>
      rw [htaken] at hqueue ⊢
      simp only [List.length_nil] at hqueue ⊢
      omega
    | inr henqueued =>
      rw [henqueued] at hqueue ⊢
      simp only [List.length_nil] at hqueue ⊢
      omega
  · rfl

theorem ownedStep_fromSession {h : Nat} {sessionId : UInt32} {w : Owned κ}
    (hs : FromSession h sessionId w.up.writers) (op : UplinkOp) :
    FromSession h sessionId (ownedStep crypto w op).1.up.writers := by
  rw [ownedStep_up, uplinkStep_writers]
  exact final_invariant (writersStep cfg) (fun s op hs => hs.step op) _ _ hs

theorem uplinkStep_sessionId (s : Uplink κ) (op : UplinkOp) :
    (uplinkStep crypto s op).1.writers.sessionId =
      s.writers.sessionId + UInt32.ofNat (if op.stepsId then 1 else 0) := by
  rw [uplinkStep_writers]
  cases op with
  | write op =>
    simp only [UplinkOp.writes, final_cons, final_nil]
    by_cases hop : op = .nextSession
    · subst hop
      rfl
    · have hno : (UplinkOp.write op).stepsId = false := by
        cases op with
        | nextSession => exact absurd rfl hop
        | _ => rfl
      simp [hno, writersStep_sessionId op hop]
  | close lock =>
    cases hc : s.pouchClosing with
    | true => simp [UplinkOp.writes, UplinkOp.stepsId]
    | false => simp [UplinkOp.writes, UplinkOp.stepsId, writersStep]
  | finish => rfl
  | _ => simp [UplinkOp.writes, UplinkOp.stepsId]

theorem ownedFinal_sessionId (w : Owned κ) (ops : List UplinkOp) :
    (ownedFinal crypto w ops).up.writers.sessionId =
      w.up.writers.sessionId + UInt32.ofNat (idSteps ops) := by
  induction ops generalizing w with
  | nil => simp [idSteps]
  | cons op ops ih =>
    rw [ownedFinal, final_cons, ← ownedFinal, ih, ownedStep_up, uplinkStep_sessionId]
    simp only [idSteps, List.countP_cons]
    rw [UInt32.add_assoc, ← UInt32.ofNat_add, Nat.add_comm]

theorem ownedFinal_streams (k : κ) (ops : List UplinkOp) :
    StreamsInv (ownedFinal crypto (.boot k) ops).up.writers.streams := by
  apply final_invariant (ownedStep crypto) (P := fun w => StreamsInv w.up.writers.streams)
  · intro w op hw
    rw [ownedStep_up, uplinkStep_writers]
    exact final_invariant (P := fun s => StreamsInv s.streams) (writersStep cfg)
      (fun s op hs => (writersStep_streams cfg op hs).1) _ _ hw
  · exact streamsInv_boot

/-- As long as a stream is invalid, no block of it gets into the processing queue. -/
theorem ownedStep_silent {h : Nat} {sessionId : UInt32} {w : Owned κ}
    (hs : FromSession h sessionId w.up.writers) (howners : some h ∉ w.owners) (op : UplinkOp)
    (hinvalid : h ∈ w.up.writers.streams.live → w.up.writers.sessionId ≠ sessionId) :
    some h ∉ (ownedStep crypto w op).1.owners := by
  rw [ownedStep_owners]
  intro hmem
  cases List.mem_append.mp hmem with
  | inl hold => exact howners (List.mem_of_mem_drop hold)
  | inr hnew =>
    obtain ⟨b, hb, hstream⟩ := List.mem_map.mp hnew
    cases op with
    | write op =>
      have henqueued : (uplinkStep crypto w.up (.write op)).2.enqueued = [] :=
        hs.silent cfg op hstream hinvalid
      rw [henqueued] at hb
      cases hb
    | _ => cases hstream

theorem sessionId_ne {sessionId : UInt32} {n : Nat} (hn : n + 1 < 2^32) :
    sessionId + 1 + UInt32.ofNat n ≠ sessionId := by
  intro he
  have hnat := congrArg UInt32.toNat he
  rw [UInt32.toNat_add, UInt32.toNat_add, UInt32.toNat_ofNat', UInt32.toNat_one] at hnat
  have hlt := sessionId.toNat_lt
  omega

/-- A stream that was open when pouch_uplink_finish made it invalid, and that had no block
in processing.queue, sends nothing in later sessions, unless it stays open until uplink.id
has wrapped around. -/
theorem invalid_stream_sends_nothing (k : κ) (u v : List UplinkOp) (h : Nat) (stream : PouchStream)
    (hopen : (ownedFinal crypto (.boot k) u).up.writers.stream (some h) = some stream)
    (hvalid : pouchStreamIsValid (ownedFinal crypto (.boot k) u).up.writers.sessionId stream = true)
    (hwaiting : some h ∉ (ownedFinal crypto (.boot k) u).owners)
    (hwrap : ∀ v₁ v₂, v = v₁++v₂ →
      h ∈ (ownedFinal crypto (.boot k) (u++.finish :: v₁)).up.writers.streams.live →
      idSteps v₁ + 1 < 2^32) :
    ¬ Sends crypto h (ownedFinal crypto (.boot k) (u++[.finish])) v := by
  have hids := ownedFinal_streams crypto k u
  rw [Writers.stream_some] at hopen
  have hbefore : FromSession h (ownedFinal crypto (.boot k) u).up.writers.sessionId
      (ownedFinal crypto (.boot k) u).up.writers := by
    refine ⟨hids, (hids.drawn h stream hopen).1, ?_⟩
    intro other hother
    rw [hopen, Option.some.injEq] at hother
    rw [← hother]
    simpa [pouchStreamIsValid] using hvalid
  have hafter : ownedFinal crypto (.boot k) (u++[.finish]) =
      (ownedStep crypto (ownedFinal crypto (.boot k) u) .finish).1 := final_snoc _ _ _ _
  have hlater : ∀ v₁, ownedFinal crypto (.boot k) (u++.finish :: v₁) =
      ownedFinal crypto (ownedStep crypto (ownedFinal crypto (.boot k) u) .finish).1 v₁ :=
    fun v₁ => final_append (ownedStep crypto) _ u (.finish :: v₁)
  simp only [hlater] at hwrap
  rw [hafter]
  generalize ownedFinal crypto (.boot k) u = w at *
  have hfinish : FromSession h w.up.writers.sessionId (ownedStep crypto w .finish).1.up.writers ∧
      some h ∉ (ownedStep crypto w .finish).1.owners := by
    refine ⟨ownedStep_fromSession crypto hbefore .finish, ?_⟩
    simpa [ownedStep, uplinkStep] using hwaiting
  have hinvalid : ∀ v₁ op v₂, v = v₁++op :: v₂ →
      h ∈ (ownedFinal crypto (ownedStep crypto w .finish).1 v₁).up.writers.streams.live →
      (ownedFinal crypto (ownedStep crypto w .finish).1 v₁).up.writers.sessionId ≠
        w.up.writers.sessionId := by
    intro v₁ op v₂ hsplit hlive
    rw [ownedFinal_sessionId, ownedStep_up, uplinkStep_sessionId]
    exact sessionId_ne (hwrap v₁ _ hsplit hlive)
  have hquiet := guarded_invariant (ownedStep crypto)
    (I := fun t => FromSession h w.up.writers.sessionId t.up.writers ∧ some h ∉ t.owners)
    (A := fun t _ => h ∈ t.up.writers.streams.live →
      t.up.writers.sessionId ≠ w.up.writers.sessionId)
    (fun t op hop ht => ⟨ownedStep_fromSession crypto ht.1 op,
      ownedStep_silent crypto ht.1 ht.2 op hop⟩) _ hfinish v hinvalid
  rintro ⟨e, he, ⟨owner, sent⟩, hb, hh, -⟩
  obtain ⟨v₁, op, v₂, hsplit, rfl⟩ := mem_trace (ownedStep crypto) he
  rw [show owner = some h from hh] at hb
  exact (hquiet v₁ _ hsplit).2 (List.of_mem_zip hb).1

structure NeverFails : Prop where
  session : ∀ k, (crypto.sessionStart k).1 = .ok
  pouch : ∀ k, (crypto.pouchStart k).1 = .ok
  header : ∀ k, (crypto.headerCreate k).1.isSome
  encrypt : ∀ k b, (crypto.encryptBlock k b).1.isSome

variable {crypto}

theorem NeverFails.starts (hc : NeverFails crypto) {s : Uplink κ} (hs : s.sessionActive = false) :
    ∃ header k pending, (uplinkStep crypto s .start).1 = { s with
      sessionActive := true, header, processing := { s.processing with pending }, crypto := k } := by
  cases h1 : crypto.sessionStart s.crypto with
  | mk r1 k1 =>
  obtain rfl : r1 = .ok := by simpa [h1] using hc.session s.crypto
  cases h2 : crypto.pouchStart k1 with
  | mk r2 k2 =>
  obtain rfl : r2 = .ok := by simpa [h2] using hc.pouch k1
  cases h3 : crypto.headerCreate k2 with
  | mk header k3 =>
  obtain ⟨H, rfl⟩ := Option.isSome_iff_exists.mp (by simpa [h3] using hc.header k2)
  exact ⟨some H, k3, s.processing.pending || !s.processing.queue.isEmpty, by
    simp [uplinkStep, pouchUplinkStart, hs, h1, h2, h3]⟩

theorem NeverFails.loop (hc : NeverFails crypto) (queue : BufQueue) (header : Option Buf)
    (transport : BufQueue) (k : κ) :
    ∀ b ∈ (processLoop crypto queue header transport k).2, b.2.isSome := by
  induction queue generalizing header transport k with
  | nil => simp [processLoop]
  | cons block queue ih =>
    cases he : crypto.encryptBlock k block with
    | mk encrypted k' =>
    obtain ⟨c, rfl⟩ := Option.isSome_iff_exists.mp (by simpa [he] using hc.encrypt k block)
    simp only [processLoop, he, List.forall_mem_cons]
    exact ⟨rfl, ih _ _ k'⟩

theorem NeverFails.process_sent (hc : NeverFails crypto) {w : Owned κ} {h : Nat}
    (hlen : w.owners.length = w.up.processing.queue.length) (hactive : w.up.sessionActive = true)
    (hclosed : w.up.pouchClosed = false) (hwaiting : some h ∈ w.owners) :
    ∃ b ∈ (ownedStep crypto w .process).2, b.1 = some h ∧ b.2.isSome := by
  have htaken : (uplinkStep crypto w.up .process).2.taken = (processLoop crypto
      w.up.processing.queue w.up.header w.up.transport w.up.crypto).2 := by
    cases processBlocks_cases crypto w.up with
    | inl hr => simp [uplinkStep, hr.2.2]
    | inr hr => exact absurd ⟨hactive, hclosed⟩ hr.1
  have hall := hc.loop w.up.processing.queue w.up.header w.up.transport w.up.crypto
  have hblocks := congrArg List.length
    (processLoop_spec crypto w.up.processing.queue w.up.header w.up.transport w.up.crypto).2.1
  rw [← htaken] at hall hblocks
  rw [List.length_map, ← hlen] at hblocks
  obtain ⟨i, hi, hget⟩ := List.getElem_of_mem hwaiting
  refine ⟨(w.owners[i], ((uplinkStep crypto w.up .process).2.taken[i]).2), ?_, hget, ?_⟩
  · apply List.mem_iff_getElem.mpr
    exact ⟨i, by simp [ownedStep, hblocks, hi], by simp [ownedStep]⟩
  · exact hall _ (List.getElem_mem _)

/-- The other way round, a block that waits in processing.queue is sent in the next session. -/
theorem NeverFails.waiting_sent (hc : NeverFails crypto) (k : κ) (u : List UplinkOp) {h : Nat}
    (hwaiting : some h ∈ (ownedFinal crypto (.boot k) u).owners) :
    Sends crypto h (ownedFinal crypto (.boot k) (u++[.finish])) [.start, .process] := by
  have hlen := owners_length crypto k u
  rw [ownedFinal, final_snoc, ← ownedFinal]
  generalize ownedFinal crypto (.boot k) u = w at *
  obtain ⟨s, hs, hactive, hclosed, hqueue⟩ : ∃ s, (ownedStep crypto w .finish).1 = ⟨s, w.owners⟩ ∧
      s.sessionActive = false ∧ s.pouchClosed = false ∧
      s.processing.queue = w.up.processing.queue := by
    refine ⟨pouchUplinkFinish crypto w.up, by simp [ownedStep, uplinkStep], ?_⟩
    cases ha : w.up.sessionActive <;> simp [pouchUplinkFinish, ha, endSession]
  obtain ⟨header, k', pending, hstart⟩ := hc.starts hactive
  rw [hs]
  have hbegun : (ownedStep crypto ⟨s, w.owners⟩ .start).1 = ⟨{ s with
      sessionActive := true, header, processing := { s.processing with pending }, crypto := k' },
      w.owners⟩ := by
    rw [← hstart]
    simp [ownedStep, uplinkStep]
  have hsent := hc.process_sent (w := (ownedStep crypto ⟨s, w.owners⟩ .start).1) (h := h)
    (by simp [hbegun, hlen, hqueue]) (by simp [hbegun]) (by simp [hbegun, hclosed])
    (by simpa [hbegun] using hwaiting)
  exact ⟨event (ownedStep crypto) _ .process, List.mem_cons_of_mem _ List.mem_cons_self, hsent⟩

end
def unfinishedStream (length : Nat) : List UplinkOp :=
  [.start, .write (.streamOpen pathA 0 true true),
    .write (.streamWrite (some 0) (List.replicate length 7) fun _ => true)]

theorem invalid_stream_sends_nothing_short :
    ¬ Sends pullCrypto 0 (ownedFinal pullCrypto (.boot ()) (unfinishedStream 3++[.finish]))
      [.write (.streamClose (some 0)), .start, .process] := by
  apply invalid_stream_sends_nothing pullCrypto () (unfinishedStream 3) _ 0
    ⟨1, openBlock 0x41 [0, 0, 1, 0x61, 7, 7, 7], 3, 0⟩
  · decide
  · decide
  · decide
  · intro v₁ v₂ hsplit _
    have hlength := congrArg List.length hsplit
    have hsteps : idSteps v₁ ≤ v₁.length := List.countP_le_length
    simp only [List.length_append, List.length_cons, List.length_nil] at hlength
    omega

def firstStreamValid (s : Writers) : Option Bool :=
  (s.stream (some 0)).map (pouchStreamIsValid s.sessionId)

/-- Of 600 bytes, the first block is already in processing.queue. -/
theorem invalid_stream_sends_block :
    firstStreamValid (ownedFinal pullCrypto (.boot ()) (unfinishedStream 600)).up.writers =
      some true ∧
    firstStreamValid (ownedFinal pullCrypto (.boot ())
      (unfinishedStream 600++[.finish])).up.writers = some false ∧
    ¬ Sends pullCrypto 0 (.boot ()) (unfinishedStream 600++[.finish]) ∧
    Sends pullCrypto 0 (ownedFinal pullCrypto (.boot ()) (unfinishedStream 600++[.finish]))
      [.start, .process] := by
  refine ⟨?_, ?_, ?_, ?_⟩ <;> decide +kernel

end Pouch
