import PouchNode.UplinkPull
import PouchNode.UplinkSaead
import PouchNode.WritersMem

/-! The uplink on the heap (header.c, session.c, uplink.c): the same code as on contents, with
the buffers that the two queues, the reader and uplink.header hold and every buf_alloc and
buf_free of the pipeline and the crypto layer. -/
namespace Pouch.Mem
open Heap Machine
variable {κ : Type*}

/- The n-th header has its own buffer, which is only kept if the header can be written. -/
structure UplinkEnv (cfg : Config) where
  saead : SaeadEnv cfg
  headerAlloc : Nat → Bool

def UplinkEnv.content {cfg : Config} (env : UplinkEnv cfg) : SaeadEnv cfg :=
  { env.saead with
    header := fun n => if env.headerAlloc n then env.saead.header n else none
    header_lt := by
      intro n h hh
      split at hh
      · exact env.saead.header_lt n h hh
      · cases hh }

def pouchHeaderCreate (alloc : Bool) (written : Option Buf) (h : Heap) : Option BufRef × Heap :=
  match bufAlloc alloc h with
  | (none, h) => (none, h)
  | (some header, h) =>
    match written with
    | none => (none, bufFree header h)
    | some bytes => (some (header.set bytes), h)

section
variable (cfg : Config)

def sessionEncryptBlock (o : BlockOutcome) (psa : Psa) (session : Session) (block : BufRef)
    (h : Heap) : (Option BufRef × Session) × Heap :=
  match bufAlloc o.alloc h with
  | (none, h) => ((none, session), h)
  | (some encrypted, h) =>
    let nonce := nonceGenerate session .device
    let (plaintextLen, plaintext) := pouchBufviewReadBe16 (pouchBufviewInit block.val)
    if plaintextLen ≠ pouchBufviewAvailable cfg plaintext then
      ((none, session), bufFree encrypted h)
    else
      let encryptedLen := plaintextLen + authTagLen
      match psaAead o psa session nonce (plaintext.rest.take plaintextLen) with
      | none => ((none, session), bufFree encrypted h)
      | some ciphertext =>
        if ciphertext.length ≠ encryptedLen then ((none, session), bufFree encrypted h)
        else
          ((some (encrypted.set (Octets.putBe16 encryptedLen++ciphertext)),
            { session with pouch :=
              { session.pouch with
                ad := (ciphertext.drop plaintextLen).take authTagLen
                blockIndex := session.pouch.blockIndex + 1 } }), h)

def saeadUplinkEncryptBlock (o : BlockOutcome) (s : Saead) (block : BufRef) (h : Heap) :
    (Option BufRef × Saead) × Heap :=
  if s.uplink.flags.active then
    let ((encrypted, uplink), h) := sessionEncryptBlock cfg o s.psa s.uplink block h
    ((encrypted, { s with uplink }), bufFree block h)
  else ((none, s), bufFree block h)

end

structure CryptoOps (κ : Type*) where
  sessionStart : κ → Ret × κ
  pouchStart : κ → Ret × κ
  headerCreate : κ → Heap → (Option BufRef × κ) × Heap
  encryptBlock : κ → BufRef → Heap → (Option BufRef × κ) × Heap
  sessionEnd : κ → κ

section
variable {cfg : Config} (env : UplinkEnv cfg)

def saeadCrypto : CryptoOps SaeadCrypto where
  sessionStart := (Pouch.saeadCrypto env.content).sessionStart
  pouchStart := (Pouch.saeadCrypto env.content).pouchStart
  headerCreate k h :=
    let written := if k.saead.uplink.flags.active then env.saead.header k.starts else none
    let (header, h) := pouchHeaderCreate (env.headerAlloc k.starts) written h
    ((header, k), h)
  encryptBlock k block h :=
    let ((encrypted, saead), h) := saeadUplinkEncryptBlock cfg
      (env.saead.call k.saead.psa k.blocks block.val).outcome k.saead block h
    ((encrypted, { k with saead, blocks := k.blocks + 1 }), h)
  sessionEnd := (Pouch.saeadCrypto env.content).sessionEnd

def cryptoNone : CryptoOps SaeadCrypto where
  sessionStart k := (.ok, { k with starts := k.starts + 1 })
  pouchStart k := (.ok, k)
  headerCreate k h :=
    let (header, h) := pouchHeaderCreate (env.headerAlloc k.starts) (env.saead.header k.starts) h
    ((header, k), h)
  encryptBlock k block h := ((some block, k), h)
  sessionEnd k := k

def buildCrypto : CryptoOps SaeadCrypto :=
  match cfg.encryption with
  | .saead => saeadCrypto env
  | .none => cryptoNone env

end

structure Bufview where
  buf : Option BufRef
  offset : Nat

def Bufview.erase (v : Bufview) : Pouch.Bufview := ⟨v.buf.map Ref.val, v.offset⟩

def pouchBufviewFree (v : Bufview) (h : Heap) : Bufview × Heap :=
  (⟨none, 0⟩, match v.buf with
    | none => h
    | some buf => bufFree buf h)

structure Uplink (κ : Type*) where
  heap : Heap
  writers : Writers
  header : Option BufRef
  sessionActive : Bool
  pouchClosing : Bool
  pouchClosed : Bool
  processing : WorkQueue
  transport : List BufRef
  reader : Bufview
  crypto : κ

def Uplink.boot (k : κ) : Uplink κ :=
  ⟨.empty, .boot, none, false, false, false, ⟨[], false⟩, [], ⟨none, 0⟩, k⟩

def uplinkEnqueueAll (s : Uplink κ) (blocks : List BufRef) : Uplink κ :=
  { s with processing := blocks.foldl WorkQueue.submit s.processing }

section
variable (cfg : Config) (crypto : CryptoOps κ)

def processLoop : List BufRef → Option BufRef → List BufRef → κ → Heap →
    (Option BufRef × List BufRef × κ) × Heap
  | [], header, transport, k, h => ((header, transport, k), h)
  | block :: queue, header, transport, k, h =>
    match crypto.encryptBlock k block h with
    | ((none, k), h) => processLoop queue header transport k h
    | ((some encrypted, k), h) =>
      let transport := match header with
        | none => transport
        | some header => transport++[header]
      processLoop queue none (transport++[encrypted]) k h

def processBlocks (s : Uplink κ) : Uplink κ :=
  let s :=
    if s.sessionActive && !s.pouchClosed then
      let ((header, transport, k), heap) :=
        processLoop crypto s.processing.queue s.header s.transport s.crypto s.heap
      { s with header, transport, processing := ⟨[], false⟩, crypto := k, heap }
    else { s with processing := { s.processing with pending := false } }
  { s with pouchClosed := s.pouchClosed || s.pouchClosing }

def endSession (s : Uplink κ) : Uplink κ :=
  { s with crypto := crypto.sessionEnd s.crypto, sessionActive := false }

def pouchUplinkClose (lock : Ret) (s : Uplink κ) : Uplink κ :=
  if s.pouchClosing then s
  else
    let (_, entry, enqueued) := entryBlockClose cfg lock s.writers.entry
    let s := uplinkEnqueueAll
      { s with pouchClosing := true, writers := { s.writers with entry } } enqueued
    { s with processing := { s.processing with pending := true } }

def pouchUplinkStart (s : Uplink κ) : Bool × Uplink κ :=
  if s.sessionActive then (false, s)
  else
    match crypto.sessionStart s.crypto with
    | (.err _, k) => (false, { s with crypto := k })
    | (.ok, k) =>
      match crypto.pouchStart k with
      | (.err _, k) => (false, { s with crypto := k })
      | (.ok, k) =>
        match crypto.headerCreate k s.heap with
        | ((none, k), heap) => (false, { s with header := none, crypto := k, heap })
        | ((some header, k), heap) =>
          (true, { s with
            sessionActive := true
            header := some header
            processing :=
              { s.processing with pending := s.processing.pending || !s.processing.queue.isEmpty }
            crypto := k
            heap })

def readerCopy (reader : Bufview) (room : Nat) (h : Heap) : (Buf × Bufview) × Heap :=
  let (bytes, after) := pouchBufviewMemcpy cfg reader.erase room
  let reader : Bufview := { reader with offset := after.offset }
  if pouchBufviewAvailable cfg reader.erase = 0 then
    let (reader, h) := pouchBufviewFree reader h
    ((bytes, reader), h)
  else ((bytes, reader), h)

/- pouch_bufview_init overwrites the reader's buffer when it is not ready. -/
def fillLoop : Nat → Nat → Bufview → List BufRef → Heap → (Buf × Bufview × List BufRef) × Heap
  | 0, _, reader, queue, h => (([], reader, queue), h)
  | passes + 1, room, reader, queue, h =>
    if room = 0 then (([], reader, queue), h)
    else
      let next := if pouchBufviewIsReady cfg reader.erase then some (reader, queue)
        else match queue with
          | [] => none
          | buf :: queue => some (⟨some buf, 0⟩, queue)
      match next with
      | none => (([], reader, queue), h)
      | some (reader, queue) =>
        let ((bytes, reader), h) := readerCopy cfg reader room h
        let ((more, reader, queue), h) := fillLoop passes (room - bytes.length) reader queue h
        ((bytes++more, reader, queue), h)

def pouchUplinkFill (maxlen : Nat) (s : Uplink κ) : (PouchResult × Buf) × Uplink κ :=
  if !s.sessionActive then ((.error, []), s)
  else
    let ((bytes, reader, transport), heap) :=
      fillLoop cfg (s.transport.length + 2) maxlen s.reader s.transport s.heap
    let s := { s with reader, transport, heap }
    if !s.pouchClosed || decide (pouchBufviewAvailable cfg reader.erase ≠ 0) ||
        !transport.isEmpty then
      ((.moreData, bytes), s)
    else ((.noMoreData, bytes), endSession crypto s)

def pouchUplinkFinish (s : Uplink κ) : Uplink κ :=
  let wasActive := s.sessionActive
  let heap := s.transport.foldl (fun h buf => bufFree buf h) s.heap
  let (reader, heap) := pouchBufviewFree s.reader heap
  let heap := match s.header with
    | none => heap
    | some header => bufFree header heap
  let s := { s with
    heap, reader
    transport := []
    header := none
    writers := { s.writers with sessionId := s.writers.sessionId + 1 }
    sessionActive := false, pouchClosing := false, pouchClosed := false }
  if wasActive then endSession crypto s else s

inductive UplinkOp where
  | write (op : WritersOp)
  | close (lock : Ret)
  | process
  | start
  | fill (maxlen : Nat)
  | finish

structure UplinkOut where
  started : Bool
  filled : Option (PouchResult × Buf)

def uplinkStep (s : Uplink κ) : UplinkOp → Uplink κ × UplinkOut
  | .write op =>
    let ((writers, _, enqueued), heap) := writersStep cfg s.writers s.heap op
    (uplinkEnqueueAll { s with writers, heap } enqueued, ⟨false, none⟩)
  | .close lock => (pouchUplinkClose cfg lock s, ⟨false, none⟩)
  | .process => (processBlocks crypto s, ⟨false, none⟩)
  | .start =>
    let (started, s) := pouchUplinkStart crypto s
    (s, ⟨started, none⟩)
  | .fill maxlen =>
    let (filled, s) := pouchUplinkFill cfg crypto maxlen s
    (s, ⟨false, some filled⟩)
  | .finish => (pouchUplinkFinish crypto s, ⟨false, none⟩)

abbrev uplinkFinal : Uplink κ → List UplinkOp → Uplink κ := final (uplinkStep cfg crypto)

end

structure CryptoMatch {cfg : Config} (m : CryptoOps κ) (v : Pouch.CryptoOps cfg κ) : Prop where
  sessionStart : v.sessionStart = m.sessionStart
  pouchStart : v.pouchStart = m.pouchStart
  sessionEnd : v.sessionEnd = m.sessionEnd
  header : ∀ k h, v.headerCreate k =
    ((m.headerCreate k h).1.1.map Ref.val, (m.headerCreate k h).1.2)
  encrypt : ∀ k block h, v.encryptBlock k block.val =
    ((m.encryptBlock k block h).1.1.map Ref.val, (m.encryptBlock k block h).1.2)

theorem sessionEncryptBlock_erase (cfg : Config) (o : BlockOutcome) (psa : Psa) (session : Session)
    (block : BufRef) (h : Heap) :
    Pouch.sessionEncryptBlock cfg o psa session block.val =
      ((sessionEncryptBlock cfg o psa session block h).1.1.map Ref.val,
        (sessionEncryptBlock cfg o psa session block h).1.2) := by
  cases halloc : o.alloc with
  | false => simp [sessionEncryptBlock, Pouch.sessionEncryptBlock, bufAlloc, halloc]
  | true =>
    simp only [sessionEncryptBlock, Pouch.sessionEncryptBlock, bufAlloc, halloc, Bool.not_true,
      Bool.false_eq_true, if_false, if_true]
    split
    · rfl
    · cases hp : psaAead o psa session (nonceGenerate session .device) _ with
      | none => rfl
      | some ciphertext =>
        dsimp only
        split
        · rfl
        · rfl

theorem pouchHeaderCreate_erase (alloc : Bool) (written : Option Buf) (h : Heap) :
    (pouchHeaderCreate alloc written h).1.map Ref.val = if alloc then written else none := by
  cases alloc with
  | false => rfl
  | true =>
    cases written with
    | none => rfl
    | some bytes => rfl

theorem saeadCrypto_match {cfg : Config} (env : UplinkEnv cfg) :
    CryptoMatch (saeadCrypto env) (Pouch.saeadCrypto env.content) where
  sessionStart := rfl
  pouchStart := rfl
  sessionEnd := rfl
  header k h := by
    simp only [saeadCrypto, Pouch.saeadCrypto, pouchHeaderCreate_erase, UplinkEnv.content]
    split
    · rfl
    · split
      · rfl
      · rfl
  encrypt k block h := by
    have he := sessionEncryptBlock_erase cfg
      (env.saead.call k.saead.psa k.blocks block.val).outcome k.saead.psa k.saead.uplink block h
    have hcall : env.content.call k.saead.psa k.blocks block.val =
      env.saead.call k.saead.psa k.blocks block.val := rfl
    simp only [saeadCrypto, Pouch.saeadCrypto, saeadEncrypt, saeadUplinkEncryptBlock,
      Pouch.saeadUplinkEncryptBlock, hcall]
    split
    · rw [he]
    · rfl

def Uplink.content (s : Uplink κ) (writers : Pouch.Writers) : Pouch.Uplink κ :=
  { writers
    header := s.header.map Ref.val
    sessionActive := s.sessionActive
    pouchClosing := s.pouchClosing
    pouchClosed := s.pouchClosed
    processing := s.processing.erase
    transport := s.transport.map Ref.val
    reader := s.reader.erase
    crypto := s.crypto }

def UplinkMatch (m : Uplink κ) (v : Pouch.Uplink κ) : Prop :=
  ∃ writers, WritersMatch m.writers writers ∧ v = m.content writers

theorem uplinkMatch_boot (k : κ) : UplinkMatch (Uplink.boot k) (Pouch.Uplink.boot k) :=
  ⟨.boot, ⟨rfl, rfl, rfl, rfl, fun _ => rfl, rfl⟩, rfl⟩

theorem uplinkEnqueueAll_content (s : Uplink κ) (writers : Pouch.Writers) (blocks : List BufRef) :
    (uplinkEnqueueAll s blocks).content writers =
      Pouch.uplinkEnqueueAll (s.content writers) (blocks.map Ref.val) := by
  induction blocks generalizing s with
  | nil => rfl
  | cons block blocks ih =>
    have hone : ({ s with processing := s.processing.submit block } : Uplink κ).content writers =
        uplinkEnqueue (s.content writers) block.val := by
      simp [Uplink.content, uplinkEnqueue]
    rw [List.map_cons, Pouch.uplinkEnqueueAll, List.foldl_cons, ← hone]
    exact ih { s with processing := s.processing.submit block }

section
variable {cfg : Config} {mc : CryptoOps κ} {vc : Pouch.CryptoOps cfg κ}

theorem processLoop_erase (hc : CryptoMatch mc vc) (queue : List BufRef) (header : Option BufRef)
    (transport : List BufRef) (k : κ) (h : Heap) :
    (Pouch.processLoop vc (queue.map Ref.val) (header.map Ref.val) (transport.map Ref.val) k).1 =
      ((processLoop mc queue header transport k h).1.1.map Ref.val,
        (processLoop mc queue header transport k h).1.2.1.map Ref.val,
        (processLoop mc queue header transport k h).1.2.2) := by
  induction queue generalizing header transport k h with
  | nil => rfl
  | cons block queue ih =>
    simp only [List.map_cons, Pouch.processLoop, processLoop, hc.encrypt k block h]
    cases he : mc.encryptBlock k block h with
    | mk r h' =>
    obtain ⟨encrypted, k'⟩ := r
    cases encrypted with
    | none => exact ih header transport k' h'
    | some encrypted =>
      cases header with
      | none =>
        have hrest := ih none (transport++[encrypted]) k' h'
        rw [List.map_append] at hrest
        exact hrest
      | some header =>
        have hrest := ih none (transport++[header]++[encrypted]) k' h'
        rw [List.map_append, List.map_append] at hrest
        exact hrest

theorem readerCopy_erase (cfg : Config) (reader : Bufview) (room : Nat) (h : Heap) :
    (readerCopy cfg reader room h).1.1 = (pouchBufviewMemcpy cfg reader.erase room).1 ∧
    (readerCopy cfg reader room h).1.2.erase =
      (if pouchBufviewAvailable cfg (pouchBufviewMemcpy cfg reader.erase room).2 = 0 then
        Pouch.pouchBufviewFree (pouchBufviewMemcpy cfg reader.erase room).2
      else (pouchBufviewMemcpy cfg reader.erase room).2) := by
  have hafter : ({ reader with offset := (pouchBufviewMemcpy cfg reader.erase room).2.offset } :
      Bufview).erase = (pouchBufviewMemcpy cfg reader.erase room).2 := rfl
  simp only [readerCopy, hafter]
  split
  · exact ⟨rfl, rfl⟩
  · exact ⟨rfl, rfl⟩

theorem fillLoop_erase (cfg : Config) (passes room : Nat) (reader : Bufview) (queue : List BufRef) (h : Heap) :
    Pouch.fillLoop cfg passes room reader.erase (queue.map Ref.val) =
      ((fillLoop cfg passes room reader queue h).1.1,
        (fillLoop cfg passes room reader queue h).1.2.1.erase,
        (fillLoop cfg passes room reader queue h).1.2.2.map Ref.val) := by
  induction passes generalizing room reader queue h with
  | zero => rfl
  | succ passes ih =>
    by_cases hroom : room = 0
    · simp [fillLoop, Pouch.fillLoop, hroom]
    · simp only [fillLoop, Pouch.fillLoop, hroom, if_false]
      cases hready : pouchBufviewIsReady cfg reader.erase with
      | true =>
        obtain ⟨hbytes, hleft⟩ := readerCopy_erase cfg reader room h
        simp only [if_true]
        rw [← hleft, ← hbytes, ih]
      | false =>
        cases queue with
        | nil => rfl
        | cons buf queue =>
          obtain ⟨hbytes, hleft⟩ := readerCopy_erase cfg ⟨some buf, 0⟩ room h
          have hinit : pouchBufviewInit buf.val = (⟨some buf, 0⟩ : Bufview).erase := rfl
          simp only [Bool.false_eq_true, if_false, List.map_cons, bufQueueGet, hinit]
          rw [← hleft, ← hbytes, ih]

def UplinkOp.content : UplinkOp → Pouch.UplinkOp
  | .write op => .write op
  | .close lock => .close lock
  | .process => .process
  | .start => .start
  | .fill maxlen => .fill maxlen
  | .finish => .finish

theorem processBlocks_writers (m : Uplink κ) : (processBlocks mc m).writers = m.writers := by
  simp only [processBlocks]
  split <;> rfl

theorem pouchUplinkStart_writers (m : Uplink κ) : (pouchUplinkStart mc m).2.writers = m.writers := by
  unfold pouchUplinkStart
  split
  · rfl
  · split
    · rfl
    · split
      · rfl
      · split <;> rfl

theorem pouchUplinkFill_writers (cfg : Config) (m : Uplink κ) (maxlen : Nat) :
    (pouchUplinkFill cfg mc maxlen m).2.writers = m.writers := by
  simp only [pouchUplinkFill]
  split
  · rfl
  · split <;> rfl

theorem process_match (hc : CryptoMatch mc vc) (m : Uplink κ) (w : Pouch.Writers) :
    (Pouch.processBlocks vc (m.content w)).1 = (processBlocks mc m).content w := by
  have hloop := processLoop_erase hc m.processing.queue m.header m.transport m.crypto m.heap
  have hactive : (m.content w).sessionActive = m.sessionActive := rfl
  have hclosed : (m.content w).pouchClosed = m.pouchClosed := rfl
  simp only [Pouch.processBlocks, processBlocks, hactive, hclosed]
  split
  · have hsame : Pouch.processLoop vc (m.content w).processing.queue (m.content w).header
        (m.content w).transport (m.content w).crypto = Pouch.processLoop vc
        (m.processing.queue.map Ref.val) (m.header.map Ref.val) (m.transport.map Ref.val)
        m.crypto := rfl
    simp only [hsame, hloop]
    rfl
  · rfl

theorem close_match {m : Uplink κ} {w : Pouch.Writers} (hw : WritersMatch m.writers w) (lock : Ret) :
    UplinkMatch (pouchUplinkClose cfg lock m) (Pouch.pouchUplinkClose cfg lock (m.content w)).2.1 := by
  have hclosing : (m.content w).pouchClosing = m.pouchClosing := rfl
  simp only [pouchUplinkClose, Pouch.pouchUplinkClose, hclosing]
  split
  · exact ⟨w, hw, rfl⟩
  · have hentry : (m.content w).writers.entry = m.writers.entry.map Ref.val := hw.entry
    simp only [hentry, entryBlockClose_erase]
    refine ⟨{ w with entry := (entryBlockClose cfg lock m.writers.entry).2.1.map Ref.val },
      ⟨rfl, hw.streamId, hw.openStreams, hw.draws, hw.live, hw.sessionId⟩, ?_⟩
    have hall := uplinkEnqueueAll_content
      { m with
        pouchClosing := true
        writers := { m.writers with entry := (entryBlockClose cfg lock m.writers.entry).2.1 } }
      { w with entry := (entryBlockClose cfg lock m.writers.entry).2.1.map Ref.val }
      (entryBlockClose cfg lock m.writers.entry).2.2
    exact congrArg (fun s : Pouch.Uplink κ =>
      { s with processing := { s.processing with pending := true } }) hall.symm

theorem start_match (hc : CryptoMatch mc vc) (m : Uplink κ) (w : Pouch.Writers) :
    Pouch.pouchUplinkStart vc (m.content w) =
      ((pouchUplinkStart mc m).1, (pouchUplinkStart mc m).2.content w) := by
  have hactive : (m.content w).sessionActive = m.sessionActive := rfl
  have hcrypto : (m.content w).crypto = m.crypto := rfl
  simp only [Pouch.pouchUplinkStart, pouchUplinkStart, hactive, hcrypto, hc.sessionStart,
    hc.pouchStart]
  split
  · rfl
  · cases hsession : mc.sessionStart m.crypto with
    | mk r1 k1 =>
    cases r1 with
    | err e => rfl
    | ok =>
      cases hpouch : mc.pouchStart k1 with
      | mk r2 k2 =>
      cases r2 with
      | err e => simp only [hpouch]; rfl
      | ok =>
        simp only [hpouch, hc.header k2 m.heap]
        cases hnew : mc.headerCreate k2 m.heap with
        | mk r heap =>
        obtain ⟨header, k3⟩ := r
        cases header with
        | none => rfl
        | some header => simp [Uplink.content, WorkQueue.erase]

theorem fill_match (hc : CryptoMatch mc vc) (m : Uplink κ) (w : Pouch.Writers) (maxlen : Nat) :
    Pouch.pouchUplinkFill vc maxlen (m.content w) =
      ((pouchUplinkFill cfg mc maxlen m).1, (pouchUplinkFill cfg mc maxlen m).2.content w) := by
  have hactive : (m.content w).sessionActive = m.sessionActive := rfl
  have hlen : (m.content w).transport.length + 2 = m.transport.length + 2 := by
    simp [Uplink.content]
  have hloop := fillLoop_erase cfg (m.transport.length + 2) maxlen m.reader m.transport m.heap
  have hsame : Pouch.fillLoop cfg ((m.content w).transport.length + 2) maxlen (m.content w).reader
      (m.content w).transport = Pouch.fillLoop cfg (m.transport.length + 2) maxlen m.reader.erase
        (m.transport.map Ref.val) := by
    rw [hlen]
    rfl
  simp only [Pouch.pouchUplinkFill, pouchUplinkFill, hactive, hsame, hloop]
  split
  · rfl
  · have hclosed : (m.content w).pouchClosed = m.pouchClosed := rfl
    simp only [hclosed, List.isEmpty_map]
    split
    · rfl
    · simp only [Pouch.endSession, endSession, hc.sessionEnd]
      rfl

theorem finish_match (hc : CryptoMatch mc vc) {m : Uplink κ} {w : Pouch.Writers}
    (hw : WritersMatch m.writers w) :
    UplinkMatch (pouchUplinkFinish mc m) (Pouch.pouchUplinkFinish vc (m.content w)) := by
  have hactive : (m.content w).sessionActive = m.sessionActive := rfl
  refine ⟨{ w with sessionId := w.sessionId + 1 }, ?_, ?_⟩
  · simp only [pouchUplinkFinish]
    split <;> exact ⟨hw.entry, hw.streamId, hw.openStreams, hw.draws, hw.live,
      congrArg (· + 1) hw.sessionId⟩
  · simp only [Pouch.pouchUplinkFinish, pouchUplinkFinish, hactive]
    split
    · simp only [Pouch.endSession, endSession, hc.sessionEnd]
      rfl
    · rfl

/-- The uplink on the heap does what the uplink on contents does. -/
theorem uplinkStep_match (hc : CryptoMatch mc vc) {m : Uplink κ} {v : Pouch.Uplink κ}
    (hm : UplinkMatch m v) (op : UplinkOp) :
    UplinkMatch (uplinkStep cfg mc m op).1 (Pouch.uplinkStep vc v op.content).1 ∧
    (Pouch.uplinkStep vc v op.content).2.started = (uplinkStep cfg mc m op).2.started ∧
    (Pouch.uplinkStep vc v op.content).2.filled = (uplinkStep cfg mc m op).2.filled := by
  obtain ⟨w, hw, rfl⟩ := hm
  cases op with
  | write op =>
    obtain ⟨hnext, hout⟩ := writersStep_match cfg hw m.heap op
    refine ⟨⟨_, hnext, ?_⟩, rfl, rfl⟩
    simp only [UplinkOp.content, Pouch.uplinkStep, uplinkStep, uplinkEnqueueAll_content]
    have hwriters : (m.content w).writers = w := rfl
    simp only [hwriters, hout]
    rfl
  | close lock => exact ⟨close_match hw lock, rfl, rfl⟩
  | process => exact ⟨⟨w, processBlocks_writers m ▸ hw, process_match hc m w⟩, rfl, rfl⟩
  | start =>
    have hstart := start_match hc m w
    refine ⟨⟨w, pouchUplinkStart_writers m ▸ hw, ?_⟩, ?_, rfl⟩
    · exact congrArg Prod.snd hstart
    · exact congrArg Prod.fst hstart
  | fill maxlen =>
    have hfill := fill_match hc m w maxlen
    refine ⟨⟨w, pouchUplinkFill_writers cfg m maxlen ▸ hw, ?_⟩, rfl, ?_⟩
    · exact congrArg Prod.snd hfill
    · exact congrArg (some ∘ Prod.fst) hfill
  | finish => exact ⟨finish_match hc hw, rfl, rfl⟩

theorem uplinkFinal_match (hc : CryptoMatch mc vc) {m : Uplink κ} {v : Pouch.Uplink κ}
    (hm : UplinkMatch m v) (ops : List UplinkOp) :
    UplinkMatch (uplinkFinal cfg mc m ops) (Pouch.uplinkFinal vc v (ops.map UplinkOp.content)) := by
  induction ops generalizing m v with
  | nil => exact hm
  | cons op ops ih => exact ih (uplinkStep_match hc hm op).1

end

/-- Runs of the uplink with SAEAD, on the heap and on contents. -/
theorem saead_uplinkFinal_match {cfg : Config} (env : UplinkEnv cfg) (k : SaeadCrypto)
    (ops : List UplinkOp) :
    UplinkMatch (uplinkFinal cfg (saeadCrypto env) (.boot k) ops)
      (Pouch.uplinkFinal (Pouch.saeadCrypto env.content) (.boot k) (ops.map UplinkOp.content)) :=
  uplinkFinal_match (saeadCrypto_match env) (uplinkMatch_boot k) ops

end Pouch.Mem
