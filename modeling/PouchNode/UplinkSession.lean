import PouchNode.Lib.Machine
import PouchNode.StreamIds
import PouchNode.UplinkFill

/-! Sessions of the uplink. One lemma says everything a step can do to a session; while it
is on, what has been pulled and what waits make up the header and the encrypted blocks. -/
namespace Pouch
open Machine
variable {κ : Type*} {cfg : Config}

abbrev UplinkEvent (κ : Type*) := Event (Uplink κ) UplinkOp UplinkOut

def takenBlocks (tr : List (UplinkEvent κ)) : List Buf :=
  tr.flatMap fun e => e.output.taken.map Prod.fst
def sentBlocks (tr : List (UplinkEvent κ)) : List Buf :=
  tr.flatMap fun e => e.output.taken.filterMap Prod.snd
def enqueuedInRun (tr : List (UplinkEvent κ)) : List Buf := tr.flatMap fun e => e.output.enqueued
def returnedBytes (tr : List (UplinkEvent κ)) : Buf :=
  tr.flatMap fun e => (e.output.filled.map Prod.snd).getD []

section
variable (tr : List (UplinkEvent κ)) (e : UplinkEvent κ)

@[simp] theorem takenBlocks_snoc : takenBlocks (tr++[e]) =
    takenBlocks tr++e.output.taken.map Prod.fst := by simp [takenBlocks]
@[simp] theorem sentBlocks_snoc : sentBlocks (tr++[e]) =
    sentBlocks tr++e.output.taken.filterMap Prod.snd := by simp [sentBlocks]
@[simp] theorem enqueuedInRun_snoc : enqueuedInRun (tr++[e]) =
    enqueuedInRun tr++e.output.enqueued := by simp [enqueuedInRun]
@[simp] theorem returnedBytes_snoc : returnedBytes (tr++[e]) =
    returnedBytes tr++(e.output.filled.map Prod.snd).getD [] := by simp [returnedBytes]

end

section
variable (crypto : CryptoOps cfg κ)

abbrev uplinkFinal : Uplink κ → List UplinkOp → Uplink κ := final (uplinkStep crypto)
abbrev uplinkTrace : Uplink κ → List UplinkOp → List (UplinkEvent κ) := trace (uplinkStep crypto)

theorem uplinkEnqueueAll_eq (s : Uplink κ) (blocks : List Buf) :
    uplinkEnqueueAll s blocks = { s with processing :=
      ⟨s.processing.queue++blocks, s.processing.pending || !blocks.isEmpty⟩ } := by
  induction blocks generalizing s with
  | nil => simp [uplinkEnqueueAll]
  | cons b blocks ih =>
    rw [uplinkEnqueueAll, List.foldl_cons, ← uplinkEnqueueAll, ih]
    simp [uplinkEnqueue, WorkQueue.submit, bufQueueSubmit]

structure SameSession (s t : Uplink κ) : Prop where
  header : t.header = s.header
  sessionActive : t.sessionActive = s.sessionActive
  transport : t.transport = s.transport
  reader : t.reader = s.reader
  crypto : t.crypto = s.crypto

structure FillStep (crypto : CryptoOps cfg κ) (maxlen : Nat) (s t : Uplink κ) (out : UplinkOut)
    (result : PouchResult) (bytes : Buf) : Prop where
  active : s.sessionActive = true
  output : out.filled = some (result, bytes)
  taken : out.taken = []
  spec : ReaderOk cfg s.reader → (∀ buf ∈ s.transport, buf.length < 2^cfg.sizeBits) →
    FillSpec cfg maxlen s.reader s.transport (bytes, t.reader, t.transport)
  header : t.header = s.header
  ends : result = .moreData ∧ t.sessionActive = true ∧ t.crypto = s.crypto ∨
    result = .noMoreData ∧ t.sessionActive = false ∧ t.transport = [] ∧
      pouchBufviewAvailable cfg t.reader = 0 ∧ t.crypto = crypto.sessionEnd s.crypto

inductive SessionStep (s t : Uplink κ) (out : UplinkOut) : Prop
  | quiet (same : SameSession s t) (taken : out.taken = []) (filled : out.filled = none)
  | processed (active : s.sessionActive = true) (blocks : List Buf)
      (state : t.header = headerLeft s.header (encryptBlocks crypto s.crypto blocks).1 ∧
        t.transport = s.transport++withHeader s.header (encryptBlocks crypto s.crypto blocks).1 ∧
        t.crypto = (encryptBlocks crypto s.crypto blocks).2)
      (same : t.sessionActive = s.sessionActive ∧ t.reader = s.reader)
      (taken : out.taken = (processLoop crypto blocks s.header s.transport s.crypto).2)
      (filled : out.filled = none)
  | refused (inactive : s.sessionActive = false) (same : t = s) (taken : out.taken = [])
      (filled : out.filled = some (.error, []))
  | filled (maxlen : Nat) (result : PouchResult) (bytes : Buf)
      (fill : FillStep crypto maxlen s t out result bytes)
  | finished (inactive : t.sessionActive = false) (header : t.header = none)
      (transport : t.transport = []) (reader : t.reader = ⟨none, 0⟩) (taken : out.taken = [])
      (filled : out.filled = none)
      (state : t.crypto = s.crypto ∨ t.crypto = crypto.sessionEnd s.crypto)

theorem processBlocks_cases (s : Uplink κ) :
    (s.sessionActive = true ∧ s.pouchClosed = false ∧ processBlocks crypto s =
      ({ s with
        header := headerLeft s.header (encryptBlocks crypto s.crypto s.processing.queue).1
        transport := s.transport++
          withHeader s.header (encryptBlocks crypto s.crypto s.processing.queue).1
        processing := ⟨[], false⟩
        crypto := (encryptBlocks crypto s.crypto s.processing.queue).2
        pouchClosed := s.pouchClosing },
      (processLoop crypto s.processing.queue s.header s.transport s.crypto).2)) ∨
    (¬ (s.sessionActive = true ∧ s.pouchClosed = false) ∧ processBlocks crypto s =
      ({ s with
        processing := { s.processing with pending := false }
        pouchClosed := s.pouchClosed || s.pouchClosing }, [])) := by
  by_cases hopen : s.sessionActive = true ∧ s.pouchClosed = false
  · obtain ⟨hstate, -⟩ := processLoop_spec crypto s.processing.queue s.header s.transport s.crypto
    refine Or.inl ⟨hopen.1, hopen.2, ?_⟩
    simp [processBlocks, hopen, hstate]
  · refine Or.inr ⟨hopen, ?_⟩
    have hcond : (s.sessionActive && !s.pouchClosed) = false := by
      simpa using hopen
    simp only [processBlocks, hcond]
    simp

theorem fillStep {s : Uplink κ} (ha : s.sessionActive = true) (maxlen : Nat) :
    ∃ result bytes, FillStep crypto maxlen s (uplinkStep crypto s (.fill maxlen)).1
      (uplinkStep crypto s (.fill maxlen)).2 result bytes := by
  obtain ⟨bytes, reader, transport, hloop⟩ : ∃ bytes reader transport,
      fillLoop cfg (s.transport.length + 2) maxlen s.reader s.transport =
        (bytes, reader, transport) := ⟨_, _, _, rfl⟩
  have hspec : ReaderOk cfg s.reader → (∀ buf ∈ s.transport, buf.length < 2^cfg.sizeBits) →
      FillSpec cfg maxlen s.reader s.transport (bytes, reader, transport) := by
    intro hr hq
    rw [← hloop]
    apply fillLoop_spec _ _ _ _ hr hq
    right
    split <;> omega
  by_cases hmore : (!s.pouchClosed || decide (pouchBufviewAvailable cfg reader ≠ 0) ||
      !transport.isEmpty) = true
  · have he : pouchUplinkFill crypto maxlen s =
        ((.moreData, bytes), { s with reader, transport }) := by
      simp only [pouchUplinkFill, ha, hloop, hmore]
      simp
    simp only [uplinkStep, he]
    exact ⟨.moreData, bytes, ha, rfl, rfl, hspec, rfl, Or.inl ⟨rfl, ha, rfl⟩⟩
  · have he : pouchUplinkFill crypto maxlen s =
        ((.noMoreData, bytes), endSession crypto { s with reader, transport }) := by
      simp only [pouchUplinkFill, ha, hloop, hmore]
      simp
    have hdone : pouchBufviewAvailable cfg reader = 0 ∧ transport = [] := by
      simp only [Bool.or_eq_true, decide_eq_true_eq, not_or, not_not, Bool.not_eq_true'] at hmore
      exact ⟨hmore.1.2, by simpa using hmore.2⟩
    simp only [uplinkStep, he]
    exact ⟨.noMoreData, bytes, ha, rfl, rfl, hspec, rfl, Or.inr ⟨rfl, rfl, hdone.2, hdone.1, rfl⟩⟩

theorem uplinkStep_cases (s : Uplink κ) (op : UplinkOp) (hop : op ≠ .start) :
    SessionStep crypto s (uplinkStep crypto s op).1 (uplinkStep crypto s op).2 := by
  cases op with
  | enqueue block => exact .quiet ⟨rfl, rfl, rfl, rfl, rfl⟩ rfl rfl
  | write op =>
    simp only [uplinkStep, uplinkEnqueueAll_eq]
    exact .quiet ⟨rfl, rfl, rfl, rfl, rfl⟩ rfl rfl
  | close lock =>
    cases hc : s.pouchClosing with
    | true =>
      simp only [uplinkStep, pouchUplinkClose, hc, if_true]
      exact .quiet ⟨rfl, rfl, rfl, rfl, rfl⟩ rfl rfl
    | false =>
      simp only [uplinkStep, pouchUplinkClose, hc, uplinkEnqueueAll_eq]
      exact .quiet ⟨rfl, rfl, rfl, rfl, rfl⟩ rfl rfl
  | process =>
    cases processBlocks_cases crypto s with
    | inl hr =>
      obtain ⟨ha, -, he⟩ := hr
      simp only [uplinkStep, he]
      exact .processed ha s.processing.queue ⟨rfl, rfl, rfl⟩ ⟨rfl, rfl⟩ rfl rfl
    | inr hr =>
      simp only [uplinkStep, hr.2]
      exact .quiet ⟨rfl, rfl, rfl, rfl, rfl⟩ rfl rfl
  | start => exact absurd rfl hop
  | fill maxlen =>
    cases ha : s.sessionActive with
    | false =>
      have he : pouchUplinkFill crypto maxlen s = ((.error, []), s) := by
        simp [pouchUplinkFill, ha]
      simp only [uplinkStep, he]
      exact .refused ha rfl rfl rfl
    | true =>
      obtain ⟨result, bytes, hfill⟩ := fillStep crypto ha maxlen
      exact .filled maxlen result bytes hfill
  | finish =>
    cases ha : s.sessionActive with
    | false =>
      simp only [uplinkStep, pouchUplinkFinish, ha]
      exact .finished rfl rfl rfl rfl rfl rfl (Or.inl rfl)
    | true =>
      simp only [uplinkStep, pouchUplinkFinish, ha]
      exact .finished rfl rfl rfl rfl rfl rfl (Or.inr rfl)

inductive StartStep (s t : Uplink κ) (started : Bool) : Prop
  | busy (active : s.sessionActive = true) (result : started = false) (same : t = s)
  | failed (inactive : s.sessionActive = false) (result : started = false) (header : Option Buf)
      (k : κ) (same : t = { s with header, crypto := k })
      (state : k = (crypto.sessionStart s.crypto).2 ∨
        k = (crypto.pouchStart (crypto.sessionStart s.crypto).2).2 ∨
        k = (crypto.headerCreate (crypto.pouchStart (crypto.sessionStart s.crypto).2).2).2)
  | begun (inactive : s.sessionActive = false) (result : started = true) (H : Buf) (k1 k2 k3 : κ)
      (session : crypto.sessionStart s.crypto = (.ok, k1))
      (pouch : crypto.pouchStart k1 = (.ok, k2))
      (made : crypto.headerCreate k2 = (some H, k3))
      (same : t = { s with
        sessionActive := true
        header := some H
        processing :=
          { s.processing with pending := s.processing.pending || !s.processing.queue.isEmpty }
        crypto := k3 })

theorem uplinkStep_start (s : Uplink κ) :
    StartStep crypto s (uplinkStep crypto s .start).1 (uplinkStep crypto s .start).2.started := by
  cases ha : s.sessionActive with
  | true =>
    simp only [uplinkStep, pouchUplinkStart, ha, if_true]
    exact .busy ha rfl rfl
  | false =>
    cases h1 : crypto.sessionStart s.crypto with
    | mk r1 k1 =>
    cases r1 with
    | err e =>
      simp only [uplinkStep, pouchUplinkStart, ha, h1]
      exact .failed ha rfl s.header k1 (by simp [ha]) (Or.inl (by rw [h1]))
    | ok =>
      cases h2 : crypto.pouchStart k1 with
      | mk r2 k2 =>
      cases r2 with
      | err e =>
        simp only [uplinkStep, pouchUplinkStart, ha, h1, h2]
        exact .failed ha rfl s.header k2 (by simp [ha]) (Or.inr (Or.inl (by rw [h1, h2])))
      | ok =>
        cases h3 : crypto.headerCreate k2 with
        | mk header k3 =>
        cases header with
        | none =>
          simp only [uplinkStep, pouchUplinkStart, ha, h1, h2, h3]
          exact .failed ha rfl none k3 (by simp [ha]) (Or.inr (Or.inr (by rw [h1, h2, h3])))
        | some H =>
          simp only [uplinkStep, pouchUplinkStart, ha, h1, h2, h3]
          exact .begun ha rfl H k1 k2 k3 h1 h2 h3 rfl

def UplinkOp.writes (closing : Bool) : UplinkOp → List WritersOp
  | .write op => [op]
  | .close lock => if closing then [] else [.entry (.close lock)]
  | .finish => [.nextSession]
  | _ => []

theorem uplinkStep_writers (s : Uplink κ) (op : UplinkOp) :
    (uplinkStep crypto s op).1.writers = writersFinal cfg s.writers (op.writes s.pouchClosing) := by
  cases op with
  | enqueue block => rfl
  | write op => simp [uplinkStep, uplinkEnqueueAll_eq, UplinkOp.writes]
  | close lock =>
    cases hc : s.pouchClosing with
    | true => simp [uplinkStep, pouchUplinkClose, hc, UplinkOp.writes]
    | false =>
      simp only [uplinkStep, pouchUplinkClose, hc, uplinkEnqueueAll_eq, UplinkOp.writes]
      rfl
  | process =>
    cases processBlocks_cases crypto s with
    | inl hr => simp [uplinkStep, hr.2.2, UplinkOp.writes]
    | inr hr => simp [uplinkStep, hr.2, UplinkOp.writes]
  | start =>
    cases uplinkStep_start crypto s with
    | busy active result same => simp [same, UplinkOp.writes]
    | failed inactive result header k same => simp [same, UplinkOp.writes]
    | begun inactive result H k1 k2 k3 session pouch made same => simp [same, UplinkOp.writes]
  | fill maxlen =>
    simp only [uplinkStep, pouchUplinkFill]
    split
    · rfl
    · split <;> rfl
  | finish =>
    simp only [uplinkStep, pouchUplinkFinish]
    split <;> rfl

def UplinkOp.isTransport : UplinkOp → Bool
  | .start => true
  | .fill _ => true
  | .finish => true
  | _ => false

theorem uplinkStep_sessionActive (s : Uplink κ) {op : UplinkOp} (hop : op.isTransport = false) :
    (uplinkStep crypto s op).1.sessionActive = s.sessionActive := by
  cases op with
  | enqueue block => rfl
  | write op => simp [uplinkStep, uplinkEnqueueAll_eq]
  | close lock =>
    cases hc : s.pouchClosing with
    | true => simp [uplinkStep, pouchUplinkClose, hc]
    | false => simp [uplinkStep, pouchUplinkClose, hc, uplinkEnqueueAll_eq]
  | process =>
    cases processBlocks_cases crypto s with
    | inl hr => simp [uplinkStep, hr.2.2]
    | inr hr => simp [uplinkStep, hr.2]
  | start => cases hop
  | fill maxlen => cases hop
  | finish => cases hop

/-- A step takes blocks from the front of the queue and adds blocks at its end. -/
theorem uplinkStep_queue (s : Uplink κ) (op : UplinkOp) :
    (uplinkStep crypto s op).2.taken.map Prod.fst++(uplinkStep crypto s op).1.processing.queue =
      s.processing.queue++(uplinkStep crypto s op).2.enqueued := by
  cases op with
  | enqueue block => simp [uplinkStep, uplinkEnqueue, WorkQueue.submit, bufQueueSubmit]
  | write op => simp [uplinkStep, uplinkEnqueueAll_eq]
  | close lock =>
    cases hc : s.pouchClosing with
    | true => simp [uplinkStep, pouchUplinkClose, hc]
    | false => simp [uplinkStep, pouchUplinkClose, hc, uplinkEnqueueAll_eq]
  | process =>
    obtain ⟨-, hblocks, -⟩ :=
      processLoop_spec crypto s.processing.queue s.header s.transport s.crypto
    cases processBlocks_cases crypto s with
    | inl hr => simp [uplinkStep, hr.2.2, hblocks]
    | inr hr => simp [uplinkStep, hr.2]
  | start =>
    have hsame : (uplinkStep crypto s .start).1.processing.queue = s.processing.queue := by
      cases uplinkStep_start crypto s with
      | busy active result same => rw [same]
      | failed inactive result header k same => rw [same]
      | begun inactive result H k1 k2 k3 session pouch made same => rw [same]
    rw [hsame]
    simp [uplinkStep]
  | fill maxlen =>
    have hsame : (pouchUplinkFill crypto maxlen s).2.processing.queue = s.processing.queue := by
      simp only [pouchUplinkFill]
      split
      · rfl
      · split <;> rfl
    simp [uplinkStep, hsame]
  | finish =>
    cases ha : s.sessionActive <;> simp [uplinkStep, pouchUplinkFinish, ha, endSession]

/-- What process_blocks answers for the blocks that it takes is in the transport queue then,
behind the header if that was still there. -/
theorem process_transport (s : Uplink κ) :
    (uplinkStep crypto s .process).1.transport =
      s.transport++withHeader s.header
        ((uplinkStep crypto s .process).2.taken.filterMap Prod.snd) := by
  obtain ⟨-, -, hsent⟩ := processLoop_spec crypto s.processing.queue s.header s.transport s.crypto
  cases processBlocks_cases crypto s with
  | inl hr => simp [uplinkStep, hr.2.2, hsent]
  | inr hr => simp [uplinkStep, hr.2, withHeader]

/- The step takes the block from processing.queue, and what is made of it comes into the
   transport queue. -/
def Submits (s : Uplink κ) (op : UplinkOp) (block encrypted : Buf) : Prop :=
  block ∈ s.processing.queue ∧ ∃ sent,
    (uplinkStep crypto s op).1.transport = s.transport++sent ∧ encrypted ∈ sent

theorem taken_submits {s : Uplink κ} {op : UplinkOp} {block encrypted : Buf}
    (h : (block, some encrypted) ∈ (uplinkStep crypto s op).2.taken) :
    op = .process ∧ Submits crypto s op block encrypted := by
  have hqueue := uplinkStep_queue crypto s op
  cases op with
  | process =>
    have hnone : (uplinkStep crypto s .process).2.enqueued = [] := rfl
    rw [hnone, List.append_nil] at hqueue
    have hsent : encrypted ∈ (uplinkStep crypto s .process).2.taken.filterMap Prod.snd :=
      List.mem_filterMap.mpr ⟨_, h, rfl⟩
    refine ⟨rfl, ?_, _, process_transport crypto s, ?_⟩
    · rw [← hqueue]
      exact List.mem_append_left _ (List.mem_map_of_mem h)
    · rw [withHeader, if_neg (List.ne_nil_of_mem hsent)]
      exact List.mem_append_right _ hsent
  | enqueue block | write op | start | fill maxlen | finish => cases h
  | close lock =>
    simp only [uplinkStep] at h
    cases h

/-- Over a whole run, the blocks taken and then those still waiting are the blocks enqueued,
in this order. -/
theorem taken_append_queue (k : κ) (ops : List UplinkOp) :
    takenBlocks (uplinkTrace crypto (.boot k) ops)++
      (uplinkFinal crypto (.boot k) ops).processing.queue =
    enqueuedInRun (uplinkTrace crypto (.boot k) ops) := by
  refine trace_invariant (uplinkStep crypto) (A := fun _ => True)
    (P := fun tr s => takenBlocks tr++s.processing.queue = enqueuedInRun tr) _ rfl ?_ ops
    (fun _ _ => trivial)
  intro tr s op _ h
  have hstep := uplinkStep_queue crypto s op
  rw [takenBlocks_snoc, enqueuedInRun_snoc, List.append_assoc]
  simp only [event]
  rw [hstep, ← List.append_assoc, h]

def sessionString (k : κ) (H : Buf) (blocks : List Buf) : Buf :=
  (withHeader (some H) (encryptBlocks crypto k blocks).1).flatten

structure Pulling (k : κ) (H : Buf) (tr : List (UplinkEvent κ)) (s : Uplink κ) : Prop where
  active : s.sessionActive = true
  sent : sentBlocks tr = (encryptBlocks crypto k (takenBlocks tr)).1
  state : s.crypto = (encryptBlocks crypto k (takenBlocks tr)).2
  header : s.header = headerLeft (some H) (sentBlocks tr)
  bytes : returnedBytes tr++waitingBytes s.reader s.transport =
    (withHeader (some H) (sentBlocks tr)).flatten
  reader : ReaderOk cfg s.reader
  lengths : ∀ buf ∈ s.transport, buf.length < 2^cfg.sizeBits

variable {crypto} {k : κ} {H : Buf} {tr : List (UplinkEvent κ)} {s : Uplink κ}

theorem Pulling.string (h : Pulling crypto k H tr s) :
    returnedBytes tr++waitingBytes s.reader s.transport =
      sessionString crypto k H (takenBlocks tr) := by
  rw [h.bytes, sessionString, h.sent]

theorem Pulling.same {e : UplinkEvent κ} {t : Uplink κ} (h : Pulling crypto k H tr s)
    (same : SameSession s t) (taken : e.output.taken = []) (filled : e.output.filled = none) :
    Pulling crypto k H (tr++[e]) t := by
  have ht : takenBlocks (tr++[e]) = takenBlocks tr := by simp [taken]
  have hs : sentBlocks (tr++[e]) = sentBlocks tr := by simp [taken]
  have hb : returnedBytes (tr++[e]) = returnedBytes tr := by simp [filled]
  refine ⟨?_, ?_, ?_, ?_, ?_, ?_, ?_⟩
  · rw [same.sessionActive, h.active]
  · rw [hs, ht, h.sent]
  · rw [same.crypto, ht, h.state]
  · rw [same.header, hs, h.header]
  · rw [hb, hs, same.reader, same.transport, h.bytes]
  · rw [same.reader]
    exact h.reader
  · rw [same.transport]
    exact h.lengths

theorem withHeader_lt {header : Option Buf} {sent : List Buf}
    (hh : ∀ H, header = some H → H.length < 2^cfg.sizeBits)
    (hs : ∀ b ∈ sent, b.length < 2^cfg.sizeBits) :
    ∀ b ∈ withHeader header sent, b.length < 2^cfg.sizeBits := by
  intro b hb
  by_cases hnil : sent = []
  · simp [withHeader, hnil] at hb
  · rw [withHeader, if_neg hnil, List.mem_append, Option.mem_toList] at hb
    cases hb with
    | inl h => exact hh b h
    | inr h => exact hs b h

theorem Pulling.processed {e : UplinkEvent κ} {t : Uplink κ} (h : Pulling crypto k H tr s)
    (hH : H.length < 2^cfg.sizeBits) (blocks : List Buf)
    (state : t.header = headerLeft s.header (encryptBlocks crypto s.crypto blocks).1 ∧
      t.transport = s.transport++withHeader s.header (encryptBlocks crypto s.crypto blocks).1 ∧
      t.crypto = (encryptBlocks crypto s.crypto blocks).2)
    (same : t.sessionActive = s.sessionActive ∧ t.reader = s.reader)
    (taken : e.output.taken = (processLoop crypto blocks s.header s.transport s.crypto).2)
    (filled : e.output.filled = none) : Pulling crypto k H (tr++[e]) t := by
  obtain ⟨-, hblocks, hsent⟩ := processLoop_spec crypto blocks s.header s.transport s.crypto
  have ht : takenBlocks (tr++[e]) = takenBlocks tr++blocks := by
    rw [takenBlocks_snoc, taken, hblocks]
  have hs : sentBlocks (tr++[e]) = sentBlocks tr++(encryptBlocks crypto s.crypto blocks).1 := by
    rw [sentBlocks_snoc, taken, hsent]
  have hb : returnedBytes (tr++[e]) = returnedBytes tr := by simp [filled]
  obtain ⟨hheader, htransport, hcrypto⟩ := state
  refine ⟨?_, ?_, ?_, ?_, ?_, ?_, ?_⟩
  · rw [same.1, h.active]
  · rw [hs, ht, encryptBlocks_append, h.sent, h.state]
  · rw [hcrypto, ht, encryptBlocks_append, h.state]
  · rw [hheader, hs, headerLeft_append, h.header]
  · have hwait : waitingBytes t.reader t.transport = waitingBytes s.reader s.transport++
        (withHeader s.header (encryptBlocks crypto s.crypto blocks).1).flatten := by
      simp [waitingBytes, same.2, htransport]
    rw [hb, hs, hwait, ← List.append_assoc, h.bytes, withHeader_append, List.flatten_append,
      h.header]
  · rw [same.2]
    exact h.reader
  · intro buf hbuf
    rw [htransport] at hbuf
    cases List.mem_append.mp hbuf with
    | inl hold => exact h.lengths buf hold
    | inr hnew =>
      refine withHeader_lt ?_ (encryptBlocks_lt crypto s.crypto blocks) buf hnew
      intro H' hH'
      rw [h.header, headerLeft] at hH'
      split at hH'
      · cases hH'
        exact hH
      · cases hH'

theorem Pulling.filled {e : UplinkEvent κ} {t : Uplink κ} {maxlen : Nat} {result : PouchResult}
    {bytes : Buf} (h : Pulling crypto k H tr s) (output : e.output.filled = some (result, bytes))
    (taken : e.output.taken = [])
    (spec : FillSpec cfg maxlen s.reader s.transport (bytes, t.reader, t.transport))
    (header : t.header = s.header) (active : t.sessionActive = true)
    (same : t.crypto = s.crypto) : Pulling crypto k H (tr++[e]) t := by
  have ht : takenBlocks (tr++[e]) = takenBlocks tr := by simp [taken]
  have hs : sentBlocks (tr++[e]) = sentBlocks tr := by simp [taken]
  have hb : returnedBytes (tr++[e]) = returnedBytes tr++bytes := by simp [output]
  have hbytes : bytes = (waitingBytes s.reader s.transport).take maxlen := spec.bytes
  have hwait : waitingBytes t.reader t.transport = (waitingBytes s.reader s.transport).drop maxlen :=
    spec.waiting
  refine ⟨active, ?_, ?_, ?_, ?_, spec.reader, ?_⟩
  · rw [hs, ht, h.sent]
  · rw [same, ht, h.state]
  · rw [header, hs, h.header]
  · rw [hb, hs, hbytes, hwait, List.append_assoc, List.take_append_drop, h.bytes]
  · exact fun buf hbuf => h.lengths buf (spec.queue buf hbuf)

structure Ended (crypto : CryptoOps cfg κ) (k : κ) (H : Buf) (tr : List (UplinkEvent κ))
    (s : Uplink κ) : Prop where
  inactive : s.sessionActive = false
  sent : sentBlocks tr = (encryptBlocks crypto k (takenBlocks tr)).1
  front : returnedBytes tr <+: sessionString crypto k H (takenBlocks tr)

theorem inactive_step (crypto : CryptoOps cfg κ) (h : s.sessionActive = false) (op : UplinkOp)
    (hop : op ≠ .start) :
    (uplinkStep crypto s op).1.sessionActive = false ∧
    (uplinkStep crypto s op).2.taken = [] ∧
    ((uplinkStep crypto s op).2.filled = none ∨
      (uplinkStep crypto s op).2.filled = some (.error, [])) := by
  cases uplinkStep_cases crypto s op hop with
  | quiet same taken filled => exact ⟨same.sessionActive.trans h, taken, Or.inl filled⟩
  | processed active => simp [h] at active
  | refused inactive same taken filled => exact ⟨by rw [same]; exact h, taken, Or.inr filled⟩
  | filled maxlen result bytes fill => exact absurd fill.active (by simp [h])
  | finished inactive header transport reader taken filled => exact ⟨inactive, taken, Or.inl filled⟩

theorem Ended.step (h : Ended crypto k H tr s) {op : UplinkOp} (hop : op ≠ .start) :
    Ended crypto k H (tr++[event (uplinkStep crypto) s op]) (uplinkStep crypto s op).1 := by
  obtain ⟨hinactive, htaken, hfilled⟩ := inactive_step crypto h.inactive op hop
  have ht : takenBlocks (tr++[event (uplinkStep crypto) s op]) = takenBlocks tr := by
    simp [event, htaken]
  have hs : sentBlocks (tr++[event (uplinkStep crypto) s op]) = sentBlocks tr := by
    simp [event, htaken]
  have hb : returnedBytes (tr++[event (uplinkStep crypto) s op]) = returnedBytes tr := by
    cases hfilled with
    | inl hn => simp [event, hn]
    | inr he => simp [event, he]
  refine ⟨hinactive, by rw [hs, ht, h.sent], ?_⟩
  rw [ht, hb]
  exact h.front

theorem Pulling.ended (h : Pulling crypto k H tr s) {e : UplinkEvent κ} {t : Uplink κ}
    (inactive : t.sessionActive = false) (taken : e.output.taken = [])
    (filled : e.output.filled = none) : Ended crypto k H (tr++[e]) t := by
  have ht : takenBlocks (tr++[e]) = takenBlocks tr := by simp [taken]
  have hs : sentBlocks (tr++[e]) = sentBlocks tr := by simp [taken]
  have hb : returnedBytes (tr++[e]) = returnedBytes tr := by simp [filled]
  refine ⟨inactive, by rw [hs, ht, h.sent], ?_⟩
  rw [ht, hb, ← h.string]
  exact List.prefix_append _ _

/-- A session that says there is no more has returned everything. -/
theorem Pulling.drained (h : Pulling crypto k H tr s) {e : UplinkEvent κ} {t : Uplink κ}
    {maxlen : Nat} {result : PouchResult} {bytes : Buf}
    (output : e.output.filled = some (result, bytes)) (taken : e.output.taken = [])
    (spec : FillSpec cfg maxlen s.reader s.transport (bytes, t.reader, t.transport))
    (transport : t.transport = []) (empty : pouchBufviewAvailable cfg t.reader = 0) :
    returnedBytes (tr++[e]) = sessionString crypto k H (takenBlocks (tr++[e])) := by
  have hb : returnedBytes (tr++[e]) = returnedBytes tr++bytes := by simp [output]
  have ht : takenBlocks (tr++[e]) = takenBlocks tr := by simp [taken]
  have hnone : waitingBytes t.reader t.transport = [] := by
    rw [available_rest spec.reader] at empty
    rw [waitingBytes, transport, List.length_eq_zero_iff.mp empty]
    rfl
  have hdrop : (waitingBytes s.reader s.transport).drop maxlen = [] := spec.waiting.symm.trans hnone
  have hbytes : bytes = waitingBytes s.reader s.transport := by
    calc bytes = (waitingBytes s.reader s.transport).take maxlen := spec.bytes
      _ = (waitingBytes s.reader s.transport).take maxlen++
          (waitingBytes s.reader s.transport).drop maxlen := by rw [hdrop, List.append_nil]
      _ = waitingBytes s.reader s.transport := List.take_append_drop _ _
  rw [hb, ht, hbytes, h.string]

theorem Pulling.step (h : Pulling crypto k H tr s) (hH : H.length < 2^cfg.sizeBits) {op : UplinkOp}
    (hop : op ≠ .start) :
    Pulling crypto k H (tr++[event (uplinkStep crypto) s op]) (uplinkStep crypto s op).1 ∨
    Ended crypto k H (tr++[event (uplinkStep crypto) s op]) (uplinkStep crypto s op).1 := by
  cases uplinkStep_cases crypto s op hop with
  | quiet same taken filled => exact Or.inl (h.same same taken filled)
  | processed active blocks state same taken filled =>
    exact Or.inl (h.processed hH blocks state same taken filled)
  | refused inactive => simp [h.active] at inactive
  | filled maxlen result bytes fill =>
    have hspec := fill.spec h.reader h.lengths
    cases fill.ends with
    | inl more =>
      exact Or.inl (h.filled fill.output fill.taken hspec fill.header more.2.1 more.2.2)
    | inr done =>
      refine Or.inr ⟨done.2.1, by simp [event, fill.taken, h.sent], ?_⟩
      rw [h.drained fill.output fill.taken hspec done.2.2.1 done.2.2.2.1]
  | finished inactive header transport reader taken filled =>
    exact Or.inr (h.ended inactive taken filled)

/-- A session from its start on, until the next one. -/
theorem session_run (h : Pulling crypto k H [] s) (hH : H.length < 2^cfg.sizeBits)
    (ops : List UplinkOp) (hops : .start ∉ ops) :
    Pulling crypto k H (uplinkTrace crypto s ops) (uplinkFinal crypto s ops) ∨
    Ended crypto k H (uplinkTrace crypto s ops) (uplinkFinal crypto s ops) := by
  induction ops using List.reverseRecOn with
  | nil => exact Or.inl h
  | append_singleton u op ih =>
    have hop : op ≠ .start := fun he => hops (by simp [he])
    have hu := ih fun hm => hops (List.mem_append_left _ hm)
    rw [uplinkTrace, uplinkFinal, trace_append, final_append]
    cases hu with
    | inl hp => exact hp.step hH hop
    | inr he => exact Or.inr (he.step hop)

theorem inactive_run (crypto : CryptoOps cfg κ) (h : s.sessionActive = false)
    (ops : List UplinkOp) (hops : .start ∉ ops) :
    takenBlocks (uplinkTrace crypto s ops) = [] ∧
    ∀ e ∈ uplinkTrace crypto s ops, e.output.filled = none ∨ e.output.filled = some (.error, []) := by
  induction ops generalizing s with
  | nil => exact ⟨rfl, by simp⟩
  | cons op ops ih =>
    have hop : op ≠ .start := fun he => hops (by simp [he])
    obtain ⟨hinactive, htaken, hfilled⟩ := inactive_step crypto h op hop
    obtain ⟨hrest, hall⟩ := ih hinactive fun hm => hops (List.mem_cons_of_mem _ hm)
    constructor
    · have hcons : takenBlocks (uplinkTrace crypto s (op :: ops)) =
          (uplinkStep crypto s op).2.taken.map Prod.fst++
            takenBlocks (uplinkTrace crypto (uplinkStep crypto s op).1 ops) := rfl
      rw [hcons, htaken, hrest]
      rfl
    · intro e he
      cases List.mem_cons.mp he with
      | inl hhead =>
        rw [hhead]
        exact hfilled
      | inr htail => exact hall e htail

end
end Pouch
