import PouchNode.Stream

/-! The uplink pipeline (uplink.c): blocks wait in the processing queue, are encrypted into
the transport queue during a session, and are pulled from there in pieces of any size.
The crypto layer is a parameter; its state stands for everything its answers depend on. -/
namespace Pouch
variable {κ : Type*}

/- The calls of crypto.h that the uplink makes, and pouch_header_create. A buffer they
   return is no longer than a size_t can say. -/
structure CryptoOps (cfg : Config) (κ : Type*) where
  sessionStart : κ → Ret × κ
  pouchStart : κ → Ret × κ
  headerCreate : κ → Option Buf × κ
  encryptBlock : κ → Buf → Option Buf × κ
  sessionEnd : κ → κ
  header_lt : ∀ k h, (headerCreate k).1 = some h → h.length < 2^cfg.sizeBits
  encrypt_lt : ∀ k b c, (encryptBlock k b).1 = some c → c.length < 2^cfg.sizeBits

structure Uplink (κ : Type*) where
  writers : Writers
  header : Option Buf
  sessionActive : Bool
  pouchClosing : Bool
  pouchClosed : Bool
  processing : WorkQueue
  transport : BufQueue
  reader : Bufview
  crypto : κ

def Uplink.boot (k : κ) : Uplink κ :=
  ⟨.boot, none, false, false, false, ⟨[], false⟩, [], ⟨none, 0⟩, k⟩

inductive PouchResult where
  | moreData | noMoreData | error
  deriving DecidableEq, Repr

section
variable {cfg : Config} (crypto : CryptoOps cfg κ)

def processLoop : BufQueue → Option Buf → BufQueue → κ →
    (Option Buf × BufQueue × κ) × List (Buf × Option Buf)
  | [], header, transport, k => ((header, transport, k), [])
  | block :: queue, header, transport, k =>
    match crypto.encryptBlock k block with
    | (none, k) =>
      let (result, taken) := processLoop queue header transport k
      (result, (block, none) :: taken)
    | (some encrypted, k) =>
      let transport := match header with
        | none => transport
        | some header => bufQueueSubmit transport header
      let (result, taken) := processLoop queue none (bufQueueSubmit transport encrypted) k
      (result, (block, some encrypted) :: taken)

def processBlocks (s : Uplink κ) : Uplink κ × List (Buf × Option Buf) :=
  let (s, taken) :=
    if s.sessionActive && !s.pouchClosed then
      let ((header, transport, k), taken) :=
        processLoop crypto s.processing.queue s.header s.transport s.crypto
      ({ s with header, transport, processing := ⟨[], false⟩, crypto := k }, taken)
    else ({ s with processing := { s.processing with pending := false } }, [])
  ({ s with pouchClosed := s.pouchClosed || s.pouchClosing }, taken)

def endSession (s : Uplink κ) : Uplink κ :=
  { s with crypto := crypto.sessionEnd s.crypto, sessionActive := false }

def uplinkEnqueue (s : Uplink κ) (block : Buf) : Uplink κ :=
  { s with processing := s.processing.submit block }

def uplinkEnqueueAll (s : Uplink κ) (blocks : List Buf) : Uplink κ := blocks.foldl uplinkEnqueue s

def pouchUplinkClose (cfg : Config) (lock : Ret) (s : Uplink κ) : Ret × Uplink κ × List Buf :=
  if s.pouchClosing then (.err .ealready, s, [])
  else
    let (ret, entry, enqueued) := entryBlockClose cfg lock s.writers.entry
    let s := uplinkEnqueueAll
      { s with pouchClosing := true, writers := { s.writers with entry } } enqueued
    (ret, { s with processing := { s.processing with pending := true } }, enqueued)

def pouchUplinkStart (s : Uplink κ) : Bool × Uplink κ :=
  if s.sessionActive then (false, s)
  else
    match crypto.sessionStart s.crypto with
    | (.err _, k) => (false, { s with crypto := k })
    | (.ok, k) =>
      match crypto.pouchStart k with
      | (.err _, k) => (false, { s with crypto := k })
      | (.ok, k) =>
        match crypto.headerCreate k with
        | (none, k) => (false, { s with header := none, crypto := k })
        | (some header, k) =>
          (true, { s with
            sessionActive := true
            header := some header
            processing :=
              { s.processing with pending := s.processing.pending || !s.processing.queue.isEmpty }
            crypto := k })

/- The loop of pouch_uplink_fill, with the room left in the destination. A pass that does
   not fill it uses up a buffer, so there are at most two more passes than buffers. -/
def fillLoop (cfg : Config) : Nat → Nat → Bufview → BufQueue → Buf × Bufview × BufQueue
  | 0, _, reader, queue => ([], reader, queue)
  | passes + 1, room, reader, queue =>
    if room = 0 then ([], reader, queue)
    else
      let next := if pouchBufviewIsReady cfg reader then some (reader, queue)
        else match bufQueueGet queue with
          | (none, _) => none
          | (some buf, queue) => some (pouchBufviewInit buf, queue)
      match next with
      | none => ([], reader, queue)
      | some (reader, queue) =>
        let (bytes, reader) := pouchBufviewMemcpy cfg reader room
        let reader :=
          if pouchBufviewAvailable cfg reader = 0 then pouchBufviewFree reader else reader
        let (more, reader, queue) := fillLoop cfg passes (room - bytes.length) reader queue
        (bytes++more, reader, queue)

def pouchUplinkFill (maxlen : Nat) (s : Uplink κ) : (PouchResult × Buf) × Uplink κ :=
  if !s.sessionActive then ((.error, []), s)
  else
    let (bytes, reader, transport) :=
      fillLoop cfg (s.transport.length + 2) maxlen s.reader s.transport
    let s := { s with reader, transport }
    if !s.pouchClosed || decide (pouchBufviewAvailable cfg reader ≠ 0) || !transport.isEmpty then
      ((.moreData, bytes), s)
    else ((.noMoreData, bytes), endSession crypto s)

def pouchUplinkFinish (s : Uplink κ) : Uplink κ :=
  let wasActive := s.sessionActive
  let s := { s with
    transport := []
    reader := pouchBufviewFree s.reader
    header := none
    writers := (writersStep cfg s.writers .nextSession).1
    sessionActive := false, pouchClosing := false, pouchClosed := false }
  if wasActive then endSession crypto s else s

end

inductive UplinkOp where
  | enqueue (block : Buf)
  | write (op : WritersOp)
  | close (lock : Ret)
  | process
  | start
  | fill (maxlen : Nat)
  | finish

structure UplinkOut where
  enqueued : List Buf
  taken : List (Buf × Option Buf)
  started : Bool
  filled : Option (PouchResult × Buf)

def uplinkStep {cfg : Config} (crypto : CryptoOps cfg κ) (s : Uplink κ) :
    UplinkOp → Uplink κ × UplinkOut
  | .enqueue block => (uplinkEnqueue s block, ⟨[block], [], false, none⟩)
  | .write op =>
    let (writers, out) := writersStep cfg s.writers op
    (uplinkEnqueueAll { s with writers } out.enqueued, ⟨out.enqueued, [], false, none⟩)
  | .close lock =>
    let (_, s, enqueued) := pouchUplinkClose cfg lock s
    (s, ⟨enqueued, [], false, none⟩)
  | .process =>
    let (s, taken) := processBlocks crypto s
    (s, ⟨[], taken, false, none⟩)
  | .start =>
    let (started, s) := pouchUplinkStart crypto s
    (s, ⟨[], [], started, none⟩)
  | .fill maxlen =>
    let (filled, s) := pouchUplinkFill crypto maxlen s
    (s, ⟨[], [], false, some filled⟩)
  | .finish => (pouchUplinkFinish crypto s, ⟨[], [], false, none⟩)

end Pouch
