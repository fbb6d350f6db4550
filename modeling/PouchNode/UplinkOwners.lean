import PouchNode.UplinkMem

/-! Who owns the buffers of the uplink: the open entry block, the streams, the two queues,
the reader and uplink.header. Every way out of every call hands its buffers on or frees them;
only a header that is still stored would be lost at the next start, and a finish frees it. -/
namespace Pouch.Mem
open Heap Machine
variable {κ : Type*}

/- Of the block it is given and the block it returns the crypto layer leaves one, and it
   leaves the header that it returns. -/
structure Owning (crypto : CryptoOps κ) : Prop where
  header : ∀ k h, Turns h 0 (crypto.headerCreate k h).2 (held (crypto.headerCreate k h).1.1)
  encrypt : ∀ k block h, Turns h {block.addr} (crypto.encryptBlock k block h).2
    (held (crypto.encryptBlock k block h).1.1)

theorem turns_pouchHeaderCreate (alloc : Bool) (written : Option Buf) (h : Heap) :
    Turns h 0 (pouchHeaderCreate alloc written h).2 (held (pouchHeaderCreate alloc written h).1) := by
  have halloc := turns_bufAlloc alloc h
  unfold pouchHeaderCreate
  cases hnew : bufAlloc alloc h with
  | mk header h' =>
  rw [hnew] at halloc
  cases header with
  | none => exact halloc
  | some header =>
    cases written with
    | none => exact halloc.trans (turns_bufFree header h')
    | some bytes => exact halloc

section
variable (cfg : Config)

/-- What becomes of the buffer for the ciphertext: it is returned, or freed on every other
way out. -/
theorem turns_sessionEncryptBlock (o : BlockOutcome) (psa : Psa) (session : Session)
    (block : BufRef) (h : Heap) :
    Turns h 0 (sessionEncryptBlock cfg o psa session block h).2
      (held (sessionEncryptBlock cfg o psa session block h).1.1) := by
  have halloc := turns_bufAlloc o.alloc h
  unfold sessionEncryptBlock
  cases hnew : bufAlloc o.alloc h with
  | mk encrypted h' =>
  rw [hnew] at halloc
  cases encrypted with
  | none => exact halloc
  | some encrypted =>
    have hfreed := halloc.trans (turns_bufFree encrypted h')
    dsimp only
    split
    · exact hfreed
    · split
      · exact hfreed
      · split
        · exact hfreed
        · exact halloc

theorem turns_saeadUplinkEncryptBlock (o : BlockOutcome) (s : Saead) (block : BufRef) (h : Heap) :
    Turns h {block.addr} (saeadUplinkEncryptBlock cfg o s block h).2
      (held (saeadUplinkEncryptBlock cfg o s block h).1.1) := by
  unfold saeadUplinkEncryptBlock
  split
  · have hblock := (turns_sessionEncryptBlock cfg o s.psa s.uplink block h).frame {block.addr}
    have hfree := (turns_bufFree block (sessionEncryptBlock cfg o s.psa s.uplink block h).2).frame
      (held (sessionEncryptBlock cfg o s.psa s.uplink block h).1.1)
    rw [zero_add] at hblock hfree
    exact hblock.trans (hfree.congr (add_comm _ _) rfl)
  · exact turns_bufFree block h

variable {cfg}

/-- Both builds of the crypto layer keep to it. -/
theorem owning_buildCrypto (env : UplinkEnv cfg) : Owning (buildCrypto env) := by
  unfold buildCrypto
  cases cfg.encryption with
  | saead =>
    constructor
    · exact fun k h => turns_pouchHeaderCreate _ _ h
    · exact fun k block h => turns_saeadUplinkEncryptBlock cfg _ k.saead block h
  | none =>
    constructor
    · exact fun k h => turns_pouchHeaderCreate _ _ h
    · exact fun k block h => Turns.refl h _

end

section
variable {crypto : CryptoOps κ}

theorem turns_processLoop (hc : Owning crypto) (queue : List BufRef) (header : Option BufRef)
    (transport : List BufRef) (k : κ) (h : Heap) :
    Turns h (owned queue+(held header+owned transport))
      (processLoop crypto queue header transport k h).2
      (held (processLoop crypto queue header transport k h).1.1+
        owned (processLoop crypto queue header transport k h).1.2.1) := by
  induction queue generalizing header transport k h with
  | nil => exact (Turns.refl h _).congr (by simp [processLoop]) rfl
  | cons block queue ih =>
    have hencrypt := (hc.encrypt k block h).frame (owned queue+(held header+owned transport))
    simp only [processLoop]
    cases he : crypto.encryptBlock k block h with
    | mk r h' =>
    obtain ⟨encrypted, k'⟩ := r
    rw [he] at hencrypt
    cases encrypted with
    | none =>
      apply (hencrypt.trans ((ih header transport k' h').congr ?_ rfl)).congr ?_ rfl
      · simp
      · rw [owned_cons, add_assoc]
    | some encrypted =>
      cases header with
      | none =>
        apply (hencrypt.trans ((ih none (transport++[encrypted]) k' h').congr ?_ rfl)).congr ?_ rfl
        · simp only [held_some, held_none, owned_append, owned_cons, owned_nil]
          abel
        · rw [owned_cons, add_assoc]
      | some header =>
        apply (hencrypt.trans
          ((ih none (transport++[header]++[encrypted]) k' h').congr ?_ rfl)).congr ?_ rfl
        · simp only [held_some, held_none, owned_append, owned_cons, owned_nil]
          abel
        · rw [owned_cons, add_assoc]

end

def Bufview.Unfinished (cfg : Config) (v : Bufview) : Prop :=
  v.buf = none ∨ pouchBufviewAvailable cfg v.erase ≠ 0

theorem turns_pouchBufviewFree (v : Bufview) (h : Heap) :
    Turns h (held v.buf) (pouchBufviewFree v h).2 0 := by
  unfold pouchBufviewFree
  cases v.buf with
  | none => exact Turns.refl h 0
  | some buf => exact turns_bufFree buf h

section
variable (cfg : Config)

theorem Bufview.Unfinished.not_ready {v : Bufview} (hv : v.Unfinished cfg)
    (hready : pouchBufviewIsReady cfg v.erase = false) : v.buf = none := by
  cases hv with
  | inl hnone => exact hnone
  | inr havail =>
    cases hbuf : v.buf with
    | none => rfl
    | some buf =>
      simp only [pouchBufviewIsReady, Bufview.erase, hbuf, Option.map_some, Option.isSome_some,
        Bool.true_and, decide_eq_false_iff_not, Nat.not_lt, Nat.le_zero] at hready
      have hzero : pouchBufviewAvailable cfg v.erase = 0 := by
        rw [Bufview.erase, hbuf]
        exact hready
      exact absurd hzero havail

theorem turns_readerCopy (reader : Bufview) (room : Nat) (h : Heap) :
    (readerCopy cfg reader room h).1.2.Unfinished cfg ∧
    Turns h (held reader.buf) (readerCopy cfg reader room h).2
      (held (readerCopy cfg reader room h).1.2.buf) := by
  simp only [readerCopy]
  split
  · exact ⟨Or.inl rfl, turns_pouchBufviewFree _ h⟩
  · next havail => exact ⟨Or.inr havail, Turns.refl h _⟩

/-- What the reader and the queue give up is freed, and the reader ends on a buffer with
bytes left or on none. -/
theorem turns_fillLoop (passes room : Nat) (reader : Bufview) (queue : List BufRef) (h : Heap)
    (hreader : reader.Unfinished cfg) :
    (fillLoop cfg passes room reader queue h).1.2.1.Unfinished cfg ∧
    Turns h (held reader.buf+owned queue) (fillLoop cfg passes room reader queue h).2
      (held (fillLoop cfg passes room reader queue h).1.2.1.buf+
        owned (fillLoop cfg passes room reader queue h).1.2.2) := by
  induction passes generalizing room reader queue h with
  | zero => exact ⟨hreader, Turns.refl h _⟩
  | succ passes ih =>
    by_cases hroom : room = 0
    · simp only [fillLoop, hroom, if_true]
      exact ⟨hreader, Turns.refl h _⟩
    · simp only [fillLoop, hroom, if_false]
      cases hready : pouchBufviewIsReady cfg reader.erase with
      | true =>
        obtain ⟨hcopied, hcopy⟩ := turns_readerCopy cfg reader room h
        obtain ⟨hdone, hrest⟩ := ih _ _ queue (readerCopy cfg reader room h).2 hcopied
        exact ⟨hdone, (hcopy.frame (owned queue)).trans hrest⟩
      | false =>
        have hnone := hreader.not_ready cfg hready
        cases queue with
        | nil => exact ⟨hreader, Turns.refl h _⟩
        | cons buf queue =>
          obtain ⟨hcopied, hcopy⟩ := turns_readerCopy cfg ⟨some buf, 0⟩ room h
          obtain ⟨hdone, hrest⟩ := ih _ _ queue (readerCopy cfg ⟨some buf, 0⟩ room h).2 hcopied
          refine ⟨hdone, ((hcopy.frame (owned queue)).trans hrest).congr ?_ rfl⟩
          rw [hnone, held_none, zero_add, owned_cons, held_some]

end

def Uplink.owners (s : Uplink κ) : Multiset Nat :=
  s.writers.owners+owned s.processing.queue+owned s.transport+held s.reader.buf+held s.header

theorem foldl_submit_queue (w : WorkQueue) (blocks : List BufRef) :
    (blocks.foldl WorkQueue.submit w).queue = w.queue++blocks := by
  induction blocks generalizing w with
  | nil => simp
  | cons block blocks ih => simp [ih, WorkQueue.submit]

theorem turns_freeAll (bufs : List BufRef) (h : Heap) :
    Turns h (owned bufs) (bufs.foldl (fun h buf => bufFree buf h) h) 0 := by
  induction bufs generalizing h with
  | nil => exact Turns.refl h 0
  | cons buf bufs ih =>
    have hfree := (turns_bufFree buf h).frame (owned bufs)
    rw [zero_add] at hfree
    exact (hfree.trans (ih _)).congr (owned_cons buf bufs) rfl

structure UplinkInv (cfg : Config) (s : Uplink κ) : Prop where
  streams : StreamsInv s.writers.streams
  reader : s.reader.Unfinished cfg

theorem uplinkInv_boot (cfg : Config) (k : κ) : UplinkInv cfg (Uplink.boot k) :=
  ⟨streamsInv_boot, Or.inl rfl⟩

section
variable {cfg : Config} {crypto : CryptoOps κ} {s : Uplink κ}

theorem UplinkInv.write (hs : UplinkInv cfg s) (op : WritersOp) :
    UplinkInv cfg (uplinkStep cfg crypto s (.write op)).1 ∧
    Turns s.heap s.owners (uplinkStep cfg crypto s (.write op)).1.heap
      (uplinkStep cfg crypto s (.write op)).1.owners := by
  obtain ⟨hstreams, hturns⟩ := turns_writersStep cfg hs.streams s.heap op
  refine ⟨⟨hstreams, hs.reader⟩, ?_⟩
  apply (hturns.frame
    (owned s.processing.queue+owned s.transport+held s.reader.buf+held s.header)).congr
  · rw [Uplink.owners]
    abel
  · simp only [uplinkStep, Uplink.owners, uplinkEnqueueAll, foldl_submit_queue, owned_append]
    abel

theorem UplinkInv.close (hs : UplinkInv cfg s) (lock : Ret) :
    UplinkInv cfg (pouchUplinkClose cfg lock s) ∧
    Turns s.heap s.owners (pouchUplinkClose cfg lock s).heap (pouchUplinkClose cfg lock s).owners := by
  unfold pouchUplinkClose
  split
  · exact ⟨hs, Turns.refl s.heap _⟩
  · refine ⟨⟨hs.streams, hs.reader⟩, (Turns.refl s.heap _).congr rfl ?_⟩
    simp only [Uplink.owners, Writers.owners, uplinkEnqueueAll, foldl_submit_queue, owned_append,
      ← entryBlockClose_owners cfg lock s.writers.entry]
    abel

theorem UplinkInv.process (hc : Owning crypto) (hs : UplinkInv cfg s) :
    UplinkInv cfg (processBlocks crypto s) ∧
    Turns s.heap s.owners (processBlocks crypto s).heap (processBlocks crypto s).owners := by
  simp only [processBlocks]
  split
  · refine ⟨⟨hs.streams, hs.reader⟩, ?_⟩
    have hloop := turns_processLoop hc s.processing.queue s.header s.transport s.crypto s.heap
    apply (hloop.frame (s.writers.owners+held s.reader.buf)).congr
    · rw [Uplink.owners]
      abel
    · simp only [Uplink.owners, owned_nil]
      abel
  · exact ⟨⟨hs.streams, hs.reader⟩, Turns.refl s.heap _⟩

theorem UplinkInv.start (hc : Owning crypto) (hs : UplinkInv cfg s) (hheader : s.header = none) :
    UplinkInv cfg (pouchUplinkStart crypto s).2 ∧
    Turns s.heap s.owners (pouchUplinkStart crypto s).2.heap (pouchUplinkStart crypto s).2.owners := by
  unfold pouchUplinkStart
  split
  · exact ⟨hs, Turns.refl s.heap _⟩
  · split
    · exact ⟨⟨hs.streams, hs.reader⟩, Turns.refl s.heap _⟩
    · split
      · exact ⟨⟨hs.streams, hs.reader⟩, Turns.refl s.heap _⟩
      · next k _ =>
        have hcreate := (hc.header k s.heap).frame s.owners
        rw [zero_add] at hcreate
        cases hnew : crypto.headerCreate k s.heap with
        | mk r heap =>
        obtain ⟨header, k'⟩ := r
        rw [hnew] at hcreate
        cases header with
        | none =>
          refine ⟨⟨hs.streams, hs.reader⟩, hcreate.congr rfl ?_⟩
          simp only [Uplink.owners, hheader, held_none, zero_add]
        | some header =>
          refine ⟨⟨hs.streams, hs.reader⟩, hcreate.congr rfl ?_⟩
          simp only [Uplink.owners, hheader, held_none, held_some, add_zero]
          rw [add_comm]

theorem UplinkInv.fill (hs : UplinkInv cfg s) (maxlen : Nat) :
    UplinkInv cfg (pouchUplinkFill cfg crypto maxlen s).2 ∧
    Turns s.heap s.owners (pouchUplinkFill cfg crypto maxlen s).2.heap
      (pouchUplinkFill cfg crypto maxlen s).2.owners := by
  obtain ⟨hreader, hloop⟩ :=
    turns_fillLoop cfg (s.transport.length + 2) maxlen s.reader s.transport s.heap hs.reader
  have hturns := hloop.frame (s.writers.owners+owned s.processing.queue+held s.header)
  simp only [pouchUplinkFill]
  split
  · exact ⟨hs, Turns.refl s.heap _⟩
  · split
    · refine ⟨⟨hs.streams, hreader⟩, hturns.congr ?_ ?_⟩
      · rw [Uplink.owners]
        abel
      · simp only [Uplink.owners]
        abel
    · refine ⟨⟨hs.streams, hreader⟩, hturns.congr ?_ ?_⟩
      · rw [Uplink.owners]
        abel
      · simp only [endSession, Uplink.owners]
        abel

theorem UplinkInv.finish (hs : UplinkInv cfg s) :
    UplinkInv cfg (pouchUplinkFinish crypto s) ∧
    Turns s.heap s.owners (pouchUplinkFinish crypto s).heap (pouchUplinkFinish crypto s).owners := by
  have hqueue := (turns_freeAll s.transport s.heap).frame (held s.reader.buf+held s.header)
  have hreader := (turns_pouchBufviewFree s.reader
    (s.transport.foldl (fun h buf => bufFree buf h) s.heap)).frame (held s.header)
  have hheader : Turns (pouchBufviewFree s.reader
      (s.transport.foldl (fun h buf => bufFree buf h) s.heap)).2 (held s.header)
      (pouchUplinkFinish crypto s).heap 0 := by
    unfold pouchUplinkFinish
    cases s.sessionActive <;> cases s.header with
    | none => exact Turns.refl _ 0
    | some header => exact turns_bufFree header _
  rw [zero_add] at hqueue hreader
  have hall := ((hqueue.trans hreader).trans hheader).frame
    (s.writers.owners+owned s.processing.queue)
  have hafter : (pouchUplinkFinish crypto s).owners = s.writers.owners+owned s.processing.queue := by
    unfold pouchUplinkFinish
    cases s.sessionActive <;>
      simp [Uplink.owners, Writers.owners, endSession, pouchBufviewFree]
  constructor
  · unfold pouchUplinkFinish
    cases s.sessionActive <;> exact ⟨hs.streams, Or.inl rfl⟩
  · apply hall.congr
    · rw [Uplink.owners]
      abel
    · rw [zero_add, hafter]

/-- Every step hands on what is owned; for a start, when no header is stored. -/
theorem UplinkInv.step (hc : Owning crypto) (hs : UplinkInv cfg s) (op : UplinkOp)
    (hstart : op = .start → s.header = none) :
    UplinkInv cfg (uplinkStep cfg crypto s op).1 ∧
    Turns s.heap s.owners (uplinkStep cfg crypto s op).1.heap (uplinkStep cfg crypto s op).1.owners := by
  cases op with
  | write op => exact hs.write op
  | close lock => exact hs.close lock
  | process => exact hs.process hc
  | start => exact hs.start hc (hstart rfl)
  | fill maxlen => exact hs.fill maxlen
  | finish => exact hs.finish

theorem processLoop_no_header (queue transport : List BufRef) (k : κ) (h : Heap) :
    (processLoop crypto queue none transport k h).1.1 = none := by
  induction queue generalizing transport k h with
  | nil => rfl
  | cons block queue ih =>
    simp only [processLoop]
    split
    · exact ih _ _ _
    · exact ih _ _ _

theorem uplinkStep_header (hheader : s.header = none) (op : UplinkOp)
    (hstarted : (uplinkStep cfg crypto s op).2.started = false) :
    (uplinkStep cfg crypto s op).1.header = none := by
  cases op with
  | write op => exact hheader
  | close lock =>
    simp only [uplinkStep, pouchUplinkClose]
    split
    · exact hheader
    · exact hheader
  | process =>
    simp only [uplinkStep, processBlocks]
    split
    · rw [hheader]
      exact processLoop_no_header _ _ _ _
    · exact hheader
  | start =>
    revert hstarted
    simp only [uplinkStep, pouchUplinkStart]
    split
    · exact fun _ => hheader
    · split
      · exact fun _ => hheader
      · split
        · exact fun _ => hheader
        · split
          · exact fun _ => rfl
          · intro hstarted
            cases hstarted
  | fill maxlen =>
    simp only [uplinkStep, pouchUplinkFill]
    split
    · exact hheader
    · split
      · exact hheader
      · exact hheader
  | finish =>
    simp only [uplinkStep, pouchUplinkFinish]
    split
    · rfl
    · rfl

end

def Uplink.places (s : Uplink κ) : Nat :=
  (if s.writers.entry.isSome then 1 else 0)+s.writers.streams.openStreams+
    s.processing.queue.length+s.transport.length+(if s.reader.buf.isSome then 1 else 0)+
    (if s.header.isSome then 1 else 0)

structure UplinkOwned (s : Uplink κ) : Prop where
  active : bufActiveCount s.heap = s.places
  live : s.heap.live.card = s.places
  freedOnce : s.heap.misfreed = false

theorem card_held (buf : Option BufRef) :
    Multiset.card (held buf) = if buf.isSome then 1 else 0 := by
  cases buf with
  | none => rfl
  | some buf => rfl

theorem card_uplinkOwners {cfg : Config} {s : Uplink κ} (hs : UplinkInv cfg s) :
    Multiset.card s.owners = s.places := by
  simp only [Uplink.owners, Writers.owners, streamOwners, Multiset.card_add, card_held, card_owned,
    List.length_map, ← hs.streams.counted, Uplink.places]

theorem uplinkOwned_of_owns {cfg : Config} {s : Uplink κ} (hs : UplinkInv cfg s)
    (ho : s.heap.Owns s.owners) : UplinkOwned s where
  active := by rw [bufActiveCount, ho.active, card_uplinkOwners hs]
  live := by rw [← Finset.card_val, ho.live, card_uplinkOwners hs]
  freedOnce := ho.sound

section
variable (cfg : Config) (crypto : CryptoOps κ)

/- Every successful start is followed by a finish before the next start; the flag says
   whether a finish is due. -/
def StartsFinished : Bool → Uplink κ → List UplinkOp → Prop
  | _, _, [] => True
  | due, s, .start :: ops => due = false ∧
      StartsFinished (uplinkStep cfg crypto s .start).2.started (uplinkStep cfg crypto s .start).1 ops
  | _, s, .finish :: ops => StartsFinished false (uplinkStep cfg crypto s .finish).1 ops
  | due, s, op :: ops => StartsFinished due (uplinkStep cfg crypto s op).1 ops

theorem StartsFinished.cons {due : Bool} {s : Uplink κ} {op : UplinkOp} {ops : List UplinkOp}
    (h : StartsFinished cfg crypto due s (op :: ops)) (hdue : due = false → s.header = none) :
    (op = .start → s.header = none) ∧
    ∃ next, StartsFinished cfg crypto next (uplinkStep cfg crypto s op).1 ops ∧
      (next = false → (uplinkStep cfg crypto s op).1.header = none) := by
  have hkept (hnotStart : op ≠ .start) (hrest : StartsFinished cfg crypto due
      (uplinkStep cfg crypto s op).1 ops) (hstarted : (uplinkStep cfg crypto s op).2.started = false) :
      (op = .start → s.header = none) ∧
      ∃ next, StartsFinished cfg crypto next (uplinkStep cfg crypto s op).1 ops ∧
        (next = false → (uplinkStep cfg crypto s op).1.header = none) :=
    ⟨fun he => absurd he hnotStart, due, hrest, fun hd => uplinkStep_header (hdue hd) op hstarted⟩
  cases op with
  | start =>
    have hnone := hdue h.1
    exact ⟨fun _ => hnone, _, h.2, uplinkStep_header hnone .start⟩
  | finish =>
    constructor
    · intro he
      cases he
    · refine ⟨false, h, fun _ => ?_⟩
      simp only [uplinkStep, pouchUplinkFinish]
      split
      · rfl
      · rfl
  | write op => exact hkept (by simp) h rfl
  | close lock => exact hkept (by simp) h rfl
  | process => exact hkept (by simp) h rfl
  | fill maxlen => exact hkept (by simp) h rfl

variable {cfg crypto}

theorem StartsFinished.owned (hc : Owning crypto) {due : Bool} {s : Uplink κ} {ops : List UplinkOp}
    (h : StartsFinished cfg crypto due s ops) (hdue : due = false → s.header = none)
    (hs : UplinkInv cfg s) (ho : s.heap.Owns s.owners) :
    UplinkOwned (uplinkFinal cfg crypto s ops) := by
  induction ops generalizing due s with
  | nil => exact uplinkOwned_of_owns hs ho
  | cons op ops ih =>
    obtain ⟨hstart, next, hrest, hnext⟩ := h.cons cfg crypto hdue
    obtain ⟨hinv, hturns⟩ := hs.step hc op hstart
    have hown := hturns 0 (by rwa [add_zero])
    rw [add_zero] at hown
    exact ih hrest hnext hinv hown

end

/-- Every buffer of the uplink has its owner and none is freed twice, in every state that is
reached with a finish after every successful start, whatever fails on the way. -/
theorem uplink_buffers_owned {cfg : Config} (env : UplinkEnv cfg) (k : SaeadCrypto)
    (ops : List UplinkOp) (hfinish : StartsFinished cfg (buildCrypto env) false (.boot k) ops) :
    UplinkOwned (uplinkFinal cfg (buildCrypto env) (.boot k) ops) :=
  hfinish.owned (owning_buildCrypto env) (fun _ => rfl) (uplinkInv_boot cfg k) owns_empty

def halfReadRun : List UplinkOp :=
  [.start, .write (.streamOpen pathA 42 true true),
    .write (.streamWrite (some 0) [1] fun _ => true), .write (.streamClose (some 0)), .process,
    .fill 10, .finish, .start]

theorem uplink_buffers_owned_half_read :
    UplinkOwned (uplinkFinal holeConfig
      (buildCrypto ⟨holeEnv fun n => decide (n ≠ 0), fun _ => true⟩) (.boot .boot) halfReadRun) :=
  uplink_buffers_owned _ _ halfReadRun ⟨rfl, rfl, trivial⟩

end Pouch.Mem
