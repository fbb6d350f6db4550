import PouchNode.UplinkPull
import PouchNode.StreamRun
import PouchNode.EntryFifo

/-! The closing of a pouch, step by step. POUCH_CLOSING is set before the last entry block is
enqueued, so the run of process_blocks that closes the pouch can come too early. -/
namespace Pouch
open Machine
variable {κ : Type*} {cfg : Config}

inductive Closer where
  | idle
  | flagged
  | flushed (ret : Ret)
  | returned (ret : Ret)
  deriving DecidableEq

/- The uplink with a close that is under way. Accepted entries are followed by their place
   from the open block over the blocks of processing.queue to the transport queue: taken are
   those whose block has left processing.queue, and moved those whose block was also
   encrypted. early is how many were accepted before the close. -/
structure Closing (κ : Type*) where
  up : Uplink κ
  closer : Closer
  accepted : List PouchEntry
  opened : List Nat
  waiting : List (List Nat)
  taken : List Nat
  moved : List Nat
  early : Nat

def Closing.boot (k : κ) : Closing κ := ⟨.boot k, .idle, [], [], [], [], [], 0⟩

/- The entry module gives away the open block, with the entries in it, before it writes
   to the next one. -/
def Closing.entered (w : Closing κ) (accepted : Option PouchEntry) (enqueued : List Buf) :
    Closing κ :=
  let added := accepted.toList.map fun _ => w.accepted.length
  match enqueued with
  | [] => { w with accepted := w.accepted++accepted.toList, opened := w.opened++added }
  | _ :: blocks =>
    { w with
      accepted := w.accepted++accepted.toList
      opened := added
      waiting := w.waiting++w.opened :: blocks.map fun _ => [] }

def Closing.enqueued (w : Closing κ) (blocks : List Buf) : Closing κ :=
  { w with waiting := w.waiting++blocks.map fun _ => [] }

def movedBy (waiting : List (List Nat)) (taken : List (Buf × Option Buf)) : List Nat :=
  (waiting.zip taken).flatMap fun b => if b.2.2.isSome then b.1 else []

def Closing.processed (w : Closing κ) (up : Uplink κ) (taken : List (Buf × Option Buf)) :
    Closing κ :=
  { w with
    up
    waiting := w.waiting.drop taken.length
    taken := w.taken++(w.waiting.take taken.length).flatten
    moved := w.moved++movedBy w.waiting taken }

inductive CloseOp where
  | setClosing
  | entryBlockClose (lock : Ret)
  | submitWork
  | other (op : UplinkOp)

def CloseOp.InSession : CloseOp → Prop
  | .other (.enqueue _) => True
  | .other (.write op) => op ≠ .nextSession
  | .other .process => True
  | .other _ => False
  | _ => True

def UplinkOut.none : UplinkOut := ⟨[], [], false, .none⟩

section
variable (crypto : CryptoOps cfg κ)

def closeStep (w : Closing κ) : CloseOp → Closing κ × UplinkOut
  | .setClosing =>
    if w.up.pouchClosing then (w, .none)
    else
      ({ w with up := { w.up with pouchClosing := true }, closer := .flagged
                early := w.accepted.length }, .none)
  | .entryBlockClose lock =>
    if w.closer = .flagged then
      let (ret, entry, enqueued) := entryBlockClose cfg lock w.up.writers.entry
      let up := uplinkEnqueueAll { w.up with writers := { w.up.writers with entry } } enqueued
      ({ w with up, closer := .flushed ret }.entered none enqueued,
        ⟨enqueued, [], false, none⟩)
    else (w, .none)
  | .submitWork =>
    match w.closer with
    | .flushed ret =>
      ({ w with
          up := { w.up with processing := { w.up.processing with pending := true } }
          closer := .returned ret }, .none)
    | _ => (w, .none)
  | .other op =>
    let (up, out) := uplinkStep crypto w.up op
    let after := w.processed up out.taken
    (match op with
      | .write (.entry op) =>
        let accepted := EntryEvent.accepted (event (entryStep cfg) w.up.writers.entry op)
        after.entered accepted out.enqueued
      | .close _ => after.entered none out.enqueued
      | _ => after.enqueued out.enqueued,
      out)

abbrev closeFinal : Closing κ → List CloseOp → Closing κ := final (closeStep crypto)
abbrev closeTrace (w : Closing κ) (ops : List CloseOp) := trace (closeStep crypto) w ops

/-- With nothing in between, the steps are pouch_uplink_close. -/
theorem closeSteps_eq (w : Closing κ) (lock : Ret) (hopen : w.up.pouchClosing = false) :
    (closeFinal crypto w [.setClosing, .entryBlockClose lock, .submitWork]).up =
        (pouchUplinkClose cfg lock w.up).2.1 ∧
      (closeFinal crypto w [.setClosing, .entryBlockClose lock, .submitWork]).closer =
        .returned (pouchUplinkClose cfg lock w.up).1 := by
  cases hclose : entryBlockClose cfg lock w.up.writers.entry with
  | mk ret rest =>
  cases rest with
  | mk entry enqueued =>
  cases enqueued with
  | nil => simp [closeStep, pouchUplinkClose, hopen, hclose, Closing.entered, uplinkEnqueueAll_eq]
  | cons block blocks =>
    simp [closeStep, pouchUplinkClose, hopen, hclose, Closing.entered, uplinkEnqueueAll_eq]

end

def numbered (accepted : List PouchEntry) (places : List Nat) : List PouchEntry :=
  places.filterMap (accepted[·]?)

theorem numbered_append {accepted : List PouchEntry} {places : List Nat}
    (h : ∀ i ∈ places, i < accepted.length) (more : List PouchEntry) :
    numbered (accepted++more) places = numbered accepted places :=
  List.filterMap_congr fun i hi => List.getElem?_append_left (h i hi)

/- A block without entries, or one whose payload is that of the entries at these places. -/
def EntriesIn (accepted : List PouchEntry) (places : List Nat) (block : Buf) : Prop :=
  places ≠ [] → blockPayload block = encodings (numbered accepted places)

structure Followed (w : Closing κ) : Prop where
  blocks : List.Forall₂ (EntriesIn w.accepted) w.waiting w.up.processing.queue
  order : w.taken++w.waiting.flatten++w.opened = List.range w.accepted.length
  moved : ∀ i ∈ w.moved, i ∈ w.taken
  opened : ∀ b, w.up.writers.entry = some b →
    b = openBlock 0xC0 (encodings (numbered w.accepted w.opened))
  unopened : w.up.writers.entry = none → w.opened = []

theorem followed_boot (k : κ) : Followed (Closing.boot k) where
  blocks := .nil
  order := rfl
  moved _ hi := by cases hi
  opened _ hb := by cases hb
  unopened _ := rfl

theorem Followed.entry {w : Closing κ} (h : Followed w) : EntryShape w.up.writers.entry :=
  fun b hb => ⟨_, h.opened b hb⟩

theorem Followed.placed {w : Closing κ} (h : Followed w) :
    (∀ places ∈ w.waiting, ∀ i ∈ places, i < w.accepted.length) ∧
      ∀ i ∈ w.opened, i < w.accepted.length := by
  have hmem : ∀ i ∈ w.taken++w.waiting.flatten++w.opened, i < w.accepted.length := fun i hi => by
    rw [h.order] at hi
    exact List.mem_range.mp hi
  simp only [List.mem_append, List.mem_flatten] at hmem
  exact ⟨fun places hplaces i hi => hmem i (Or.inl (Or.inr ⟨places, hplaces, hi⟩)),
    fun i hi => hmem i (Or.inr hi)⟩

theorem pouchUplinkEntryWrite_none {block : Option Buf} {path : Option CString}
    {contentType : UInt16} {data : Option Buf} {lock : Ret} {alloc : Bool}
    (hnone : (pouchUplinkEntryWrite cfg path contentType data lock alloc block).2.1 = none) :
    (pouchUplinkEntryWrite cfg path contentType data lock alloc block).1 ≠ .ok ∧
      (block = none ∨
        (pouchUplinkEntryWrite cfg path contentType data lock alloc block).2.2 ≠ []) := by
  obtain ⟨entry, hw⟩ := pouchUplinkEntryWrite_written cfg path contentType data lock alloc block
  generalize pouchUplinkEntryWrite cfg path contentType data lock alloc block = r at hw hnone ⊢
  cases hw with
  | refused e why => exact ⟨by simp, Or.inl hnone⟩
  | fresh before => cases hnone
  | added b written before fits => cases hnone
  | dropped b before full failed => exact ⟨by simp, Or.inr (by simp)⟩
  | replaced b before full => cases hnone

theorem entryBlockClose_none {block : Option Buf} {lock : Ret}
    (hnone : (entryBlockClose cfg lock block).2.1 = none) :
    block = none ∨ (entryBlockClose cfg lock block).2.2 ≠ [] := by
  cases lock with
  | err e => exact Or.inl hnone
  | ok =>
    cases block with
    | none => exact Or.inl rfl
    | some b =>
      right
      simp only [entryBlockClose] at hnone ⊢
      split
      · simp
      · rename_i hempty
        simp [hempty] at hnone

def OpenHolds (block : Option Buf) (es : List PouchEntry) : Prop :=
  ∀ b, block = some b → b = openBlock 0xC0 (encodings es)

inductive EntryContents (es : List PouchEntry) (accepted : Option PouchEntry) :
    Option Buf → List Buf → Prop
  | kept (block : Option Buf) (holds : OpenHolds block (es++accepted.toList)) :
      EntryContents es accepted block []
  | given (block : Option Buf) (b : Buf) (payload : blockPayload b = encodings es)
      (holds : OpenHolds block accepted.toList) : EntryContents es accepted block [b]

theorem writeEntry_holds (cfg : Config) (es : List PouchEntry) (entry : PouchEntry) :
    OpenHolds (some (writeEntry cfg (openBlock 0xC0 (encodings es)) entry).2)
      (es++(if (writeEntry cfg (openBlock 0xC0 (encodings es)) entry).1 = .ok then some entry
        else none).toList) := by
  rintro b hb
  rw [← Option.some.inj hb, writeEntry_eq]
  split <;> simp

theorem pouchUplinkEntryWrite_contents {block : Option Buf} {es : List PouchEntry}
    (h : OpenHolds block es) (hnone : block = none → es = []) (entry : PouchEntry) (lock : Ret)
    (alloc : Bool) :
    EntryContents es
      (if (pouchUplinkEntryWrite cfg (some entry.path) entry.contentType (some entry.data) lock
        alloc block).1 = .ok then some entry else none)
      (pouchUplinkEntryWrite cfg (some entry.path) entry.contentType (some entry.data) lock
        alloc block).2.1
      (pouchUplinkEntryWrite cfg (some entry.path) entry.contentType (some entry.data) lock
        alloc block).2.2 := by
  have hnew := writeEntry_holds cfg [] entry
  have hw := pouchUplinkEntryWrite_cases cfg entry lock alloc block
  generalize pouchUplinkEntryWrite cfg (some entry.path) entry.contentType (some entry.data) lock
    alloc block = r at hw ⊢
  cases hw with
  | refused e why => exact .kept _ (by simpa using h)
  | fresh before =>
    rw [hnone before]
    exact .kept _ hnew
  | added b written before fits =>
    obtain rfl := h b before
    have hwritten := writeEntry_holds cfg es entry
    rw [fits] at hwritten
    exact .kept _ hwritten
  | dropped b before full failed =>
    obtain rfl := h b before
    exact .given _ _ rfl fun b hb => by cases hb
  | replaced b before full =>
    obtain rfl := h b before
    exact .given _ _ rfl hnew

theorem entryStep_contents {block : Option Buf} {es : List PouchEntry} (h : OpenHolds block es)
    (hnone : block = none → es = []) (op : EntryOp) :
    EntryContents es (EntryEvent.accepted (event (entryStep cfg) block op))
      (entryStep cfg block op).1 (entryStep cfg block op).2.enqueued := by
  have hsame : EntryContents es none block [] := .kept _ (by simpa using h)
  cases op with
  | close lock =>
    have haccepted : EntryEvent.accepted (event (entryStep cfg) block (.close lock)) = none :=
      ite_self _
    rw [haccepted]
    cases lock with
    | err e => exact hsame
    | ok =>
      cases block with
      | none => exact hsame
      | some b =>
        obtain rfl := h b rfl
        have hclose : entryStep cfg (some (openBlock 0xC0 (encodings es))) (.close .ok) =
            (none, ⟨.ok, [blockFinish cfg (openBlock 0xC0 (encodings es))]⟩) := by
          simp [entryStep, entryBlockClose, blockSizeGet, bufSizeGet]
        rw [hclose]
        exact .given _ _ rfl fun b hb => by cases hb
  | write path contentType data lock alloc =>
    cases path with
    | none => exact hsame
    | some path =>
      cases data with
      | none => exact hsame
      | some data =>
        exact pouchUplinkEntryWrite_contents h hnone ⟨path, contentType, data⟩ lock alloc

theorem entryStep_none {block : Option Buf} {op : EntryOp}
    (hnone : (entryStep cfg block op).1 = none) :
    EntryEvent.accepted (event (entryStep cfg) block op) = none ∧
      (block = none ∨ (entryStep cfg block op).2.enqueued ≠ []) := by
  cases op with
  | close lock => exact ⟨ite_self _, entryBlockClose_none hnone⟩
  | write path contentType data lock alloc =>
    obtain ⟨hret, hgone⟩ := pouchUplinkEntryWrite_none hnone
    exact ⟨if_neg hret, hgone⟩

/-- With the mutex, entry_block_close leaves no open block. -/
theorem entryBlockClose_ok {block : Option Buf} (h : EntryShape block) :
    (entryBlockClose cfg .ok block).2.1 = none := by
  cases block with
  | none => rfl
  | some b =>
    obtain ⟨p, rfl⟩ := h b rfl
    simp [entryBlockClose, blockSizeGet, bufSizeGet]

theorem entered_order (w : Closing κ) (accepted : Option PouchEntry) (blocks : List Buf)
    (h : w.taken++w.waiting.flatten++w.opened = List.range w.accepted.length) :
    (w.entered accepted blocks).taken++(w.entered accepted blocks).waiting.flatten++
        (w.entered accepted blocks).opened =
      List.range (w.entered accepted blocks).accepted.length := by
  have hadded : List.range w.accepted.length++(accepted.toList.map fun _ => w.accepted.length) =
      List.range (w.accepted++accepted.toList).length := by
    cases accepted with
    | none => simp
    | some entry => simp [List.range_succ]
  cases blocks with
  | nil =>
    simp only [Closing.entered]
    rw [← hadded, ← h]
    simp
  | cons b blocks =>
    simp only [Closing.entered]
    rw [← hadded, ← h]
    simp

@[simp] theorem entered_up (w : Closing κ) (accepted : Option PouchEntry) (blocks : List Buf) :
    (w.entered accepted blocks).up = w.up := by
  cases blocks <;> rfl

@[simp] theorem entered_closer (w : Closing κ) (accepted : Option PouchEntry) (blocks : List Buf) :
    (w.entered accepted blocks).closer = w.closer := by
  cases blocks <;> rfl

@[simp] theorem entered_early (w : Closing κ) (accepted : Option PouchEntry) (blocks : List Buf) :
    (w.entered accepted blocks).early = w.early := by
  cases blocks <;> rfl

@[simp] theorem entered_moved (w : Closing κ) (accepted : Option PouchEntry) (blocks : List Buf) :
    (w.entered accepted blocks).moved = w.moved := by
  cases blocks <;> rfl

@[simp] theorem entered_taken (w : Closing κ) (accepted : Option PouchEntry) (blocks : List Buf) :
    (w.entered accepted blocks).taken = w.taken := by
  cases blocks <;> rfl

@[simp] theorem processed_nil (w : Closing κ) (up : Uplink κ) :
    w.processed up [] = { w with up } := by
  simp [Closing.processed, movedBy]

theorem EntriesIn.append {accepted : List PouchEntry} {places : List Nat} {b : Buf}
    (h : EntriesIn accepted places b) (hplaces : ∀ i ∈ places, i < accepted.length)
    (more : List PouchEntry) : EntriesIn (accepted++more) places b := by
  rw [EntriesIn, numbered_append hplaces]
  exact h

theorem entriesIn_append {accepted : List PouchEntry} {waiting : List (List Nat)}
    {queue : List Buf} (h : List.Forall₂ (EntriesIn accepted) waiting queue)
    (hplaces : ∀ places ∈ waiting, ∀ i ∈ places, i < accepted.length) (more : List PouchEntry) :
    List.Forall₂ (EntriesIn (accepted++more)) waiting queue := by
  induction h with
  | nil => exact .nil
  | cons hb _ ih =>
    rw [List.forall_mem_cons] at hplaces
    exact .cons (hb.append hplaces.1 more) (ih hplaces.2)

theorem entriesIn_none (accepted : List PouchEntry) (blocks : List Buf) :
    List.Forall₂ (EntriesIn accepted) (blocks.map fun _ => []) blocks := by
  induction blocks with
  | nil => exact .nil
  | cons b blocks ih => exact .cons (fun hne => absurd rfl hne) ih

theorem numbered_added {accepted : List PouchEntry} {places : List Nat}
    (h : ∀ i ∈ places, i < accepted.length) (new : Option PouchEntry) :
    numbered (accepted++new.toList) (places++new.toList.map fun _ => accepted.length) =
      numbered accepted places++new.toList := by
  have hold := numbered_append h new.toList
  rw [numbered] at hold ⊢
  rw [List.filterMap_append, hold]
  cases new <;> simp

theorem Followed.contents {w : Closing κ} (h : Followed w) {accepted : Option PouchEntry}
    {block : Option Buf} {enqueued : List Buf}
    (hcontents : EntryContents (numbered w.accepted w.opened) accepted block enqueued)
    (hgone : block = none → accepted = none ∧ (w.up.writers.entry = none ∨ enqueued ≠ []))
    (up : Uplink κ) (closer : Closer) (hentry : up.writers.entry = block)
    (hqueue : up.processing.queue = w.up.processing.queue++enqueued) :
    Followed ({ w with up, closer }.entered accepted enqueued) where
  blocks := by
    have hold := entriesIn_append h.blocks h.placed.1 accepted.toList
    rw [entered_up, hqueue]
    cases hcontents with
    | kept holds => simpa [Closing.entered] using hold
    | given b payload holds =>
      refine List.rel_append hold (.cons (fun _ => ?_) .nil)
      rw [payload]
      exact congrArg encodings (numbered_append h.placed.2 accepted.toList).symm
  order := entered_order _ _ _ h.order
  moved := by
    rw [entered_moved, entered_taken]
    exact h.moved
  opened := by
    rw [entered_up, hentry]
    cases hcontents with
    | kept holds =>
      rw [← numbered_added h.placed.2 accepted] at holds
      exact holds
    | given b payload holds =>
      have hnew : numbered (w.accepted++accepted.toList)
          ([]++accepted.toList.map fun _ => w.accepted.length) =
            numbered w.accepted []++accepted.toList := numbered_added (by simp) accepted
      rw [show accepted.toList = numbered w.accepted []++accepted.toList from rfl, ← hnew] at holds
      exact holds
  unopened := by
    rw [entered_up, hentry]
    intro hnone
    obtain ⟨rfl, hblock⟩ := hgone hnone
    cases hcontents with
    | kept holds =>
      have hunopened := h.unopened (hblock.resolve_right fun hne => hne rfl)
      simp [Closing.entered, hunopened]
    | given b payload holds => rfl

theorem Followed.entered {w : Closing κ} (h : Followed w) (op : EntryOp) (up : Uplink κ)
    (closer : Closer) (hentry : up.writers.entry = (entryStep cfg w.up.writers.entry op).1)
    (hqueue : up.processing.queue =
      w.up.processing.queue++(entryStep cfg w.up.writers.entry op).2.enqueued) :
    Followed ({ w with up, closer }.entered
      (EntryEvent.accepted (event (entryStep cfg) w.up.writers.entry op))
      (entryStep cfg w.up.writers.entry op).2.enqueued) :=
  h.contents (entryStep_contents h.opened (fun hnone => by rw [h.unopened hnone]; rfl) op)
    (fun hnone => entryStep_none hnone) up closer hentry hqueue

theorem Followed.flushed {w : Closing κ} (h : Followed w) (lock : Ret) (up : Uplink κ)
    (closer : Closer)
    (hentry : up.writers.entry = (entryBlockClose cfg lock w.up.writers.entry).2.1)
    (hqueue : up.processing.queue =
      w.up.processing.queue++(entryBlockClose cfg lock w.up.writers.entry).2.2) :
    Followed ({ w with up, closer }.entered none
      (entryBlockClose cfg lock w.up.writers.entry).2.2) := by
  have hnone : EntryEvent.accepted (event (entryStep cfg) w.up.writers.entry (.close lock)) =
      none := ite_self _
  have hnew := h.entered (.close lock) up closer hentry hqueue
  rw [hnone] at hnew
  exact hnew

theorem Followed.enqueued {w : Closing κ} (h : Followed w) {up : Uplink κ} {blocks : List Buf}
    (hentry : up.writers.entry = w.up.writers.entry)
    (hqueue : up.processing.queue = w.up.processing.queue++blocks) :
    Followed ({ w with up }.enqueued blocks) where
  blocks := by
    rw [Closing.enqueued, hqueue]
    exact List.rel_append h.blocks (entriesIn_none w.accepted blocks)
  order := by
    have hnone : (blocks.map fun _ => ([] : List Nat)).flatten = [] := by simp
    simp only [Closing.enqueued, List.flatten_append, hnone, List.append_nil]
    exact h.order
  moved := h.moved
  opened := by
    rw [Closing.enqueued, hentry]
    exact h.opened
  unopened := by
    rw [Closing.enqueued, hentry]
    exact h.unopened

theorem mem_movedBy {waiting : List (List Nat)} {taken : List (Buf × Option Buf)} {i : Nat}
    (hi : i ∈ movedBy waiting taken) : i ∈ (waiting.take taken.length).flatten := by
  induction waiting generalizing taken with
  | nil => simp [movedBy] at hi
  | cons entries waiting ih =>
    cases taken with
    | nil => simp [movedBy] at hi
    | cons b taken =>
      simp only [movedBy, List.zip_cons_cons, List.flatMap_cons, List.mem_append] at hi ih
      simp only [List.length_cons, List.take_succ_cons, List.flatten_cons, List.mem_append]
      cases hi with
      | inl hhead =>
        left
        split at hhead
        · exact hhead
        · cases hhead
      | inr htail => exact Or.inr (ih htail)

theorem movedBy_all {waiting : List (List Nat)} {taken : List (Buf × Option Buf)}
    (hall : ∀ b ∈ taken, b.2.isSome) :
    movedBy waiting taken = (waiting.take taken.length).flatten := by
  induction waiting generalizing taken with
  | nil => simp [movedBy]
  | cons entries waiting ih =>
    cases taken with
    | nil => simp [movedBy]
    | cons b taken =>
      have hrest := ih fun c hc => hall c (List.mem_cons_of_mem _ hc)
      simp only [movedBy] at hrest ⊢
      simp [hall b List.mem_cons_self, hrest]

section
variable (crypto : CryptoOps cfg κ)

theorem process_taken (s : Uplink κ) :
    (s.sessionActive = true ∧ s.pouchClosed = false ∧
      (uplinkStep crypto s .process).2.taken.length = s.processing.queue.length ∧
      (uplinkStep crypto s .process).1.processing.queue = []) ∨
    (¬ (s.sessionActive = true ∧ s.pouchClosed = false) ∧
      (uplinkStep crypto s .process).2.taken = [] ∧
      (uplinkStep crypto s .process).1.processing.queue = s.processing.queue) := by
  cases processBlocks_cases crypto s with
  | inl hr =>
    obtain ⟨ha, hclosed, he⟩ := hr
    have hblocks := (processLoop_spec crypto s.processing.queue s.header s.transport s.crypto).2.1
    left
    refine ⟨ha, hclosed, ?_, by simp [uplinkStep, he]⟩
    rw [← congrArg List.length hblocks]
    simp [uplinkStep, he]
  | inr hr => exact Or.inr ⟨hr.1, by simp [uplinkStep, hr.2], by simp [uplinkStep, hr.2]⟩

theorem Followed.transport {w : Closing κ} (h : Followed w) {op : UplinkOp}
    (hop : op = .start ∨ (∃ maxlen, op = .fill maxlen) ∨ op = .finish) :
    Followed (closeStep crypto w (.other op)).1 := by
  have hentry : (uplinkStep crypto w.up op).1.writers.entry = w.up.writers.entry := by
    rw [uplinkStep_writers]
    rcases hop with rfl | ⟨maxlen, rfl⟩ | rfl <;> rfl
  have hqueue := uplinkStep_queue crypto w.up op
  rcases hop with rfl | ⟨maxlen, rfl⟩ | rfl
  all_goals
    simp only [closeStep, uplinkStep, processed_nil]
    exact h.enqueued hentry hqueue

theorem Followed.processed {w : Closing κ} (h : Followed w) :
    Followed (closeStep crypto w (.other .process)).1 := by
  have hnew : (closeStep crypto w (.other .process)).1 =
      w.processed (uplinkStep crypto w.up .process).1 (uplinkStep crypto w.up .process).2.taken := by
    simp [closeStep, Closing.enqueued, uplinkStep]
  rw [hnew]
  constructor
  · have hqueue := congrArg (List.drop (uplinkStep crypto w.up .process).2.taken.length)
      (uplinkStep_queue crypto w.up .process)
    have hnone : (uplinkStep crypto w.up .process).2.enqueued = [] := rfl
    rw [List.drop_left' (List.length_map _), hnone, List.append_nil] at hqueue
    rw [Closing.processed, hqueue]
    exact List.forall₂_drop _ h.blocks
  · simp only [Closing.processed, ← h.order, List.append_assoc]
    rw [← List.append_assoc _ (w.waiting.drop _).flatten, ← List.flatten_append,
      List.take_append_drop]
  · intro i hi
    cases List.mem_append.mp hi with
    | inl hold => exact List.mem_append_left _ (h.moved i hold)
    | inr hnew => exact List.mem_append_right _ (mem_movedBy hnew)
  · rw [Closing.processed, uplinkStep_writers]
    exact h.opened
  · rw [Closing.processed, uplinkStep_writers]
    exact h.unopened

theorem closeStep_followed {w : Closing κ} (h : Followed w) (op : CloseOp) :
    Followed (closeStep crypto w op).1 := by
  cases op with
  | setClosing =>
    simp only [closeStep]
    split
    · exact h
    · exact ⟨h.blocks, h.order, h.moved, h.opened, h.unopened⟩
  | entryBlockClose lock =>
    simp only [closeStep]
    split
    · apply h.flushed lock
      · rw [uplinkEnqueueAll_eq]
      · rw [uplinkEnqueueAll_eq]
    · exact h
  | submitWork =>
    simp only [closeStep]
    split
    · exact ⟨h.blocks, h.order, h.moved, h.opened, h.unopened⟩
    · exact h
  | other op =>
    cases op with
    | enqueue block =>
      simp only [closeStep, uplinkStep, processed_nil]
      exact h.enqueued rfl rfl
    | write op =>
      cases op with
      | entry op =>
        simp only [closeStep, uplinkStep, processed_nil]
        apply h.entered op
        · rw [uplinkEnqueueAll_eq]
          rfl
        · rw [uplinkEnqueueAll_eq]
          rfl
      | _ =>
        simp only [closeStep, uplinkStep, processed_nil]
        apply h.enqueued
        · rw [uplinkEnqueueAll_eq]
          apply writersStep_entry
          intro o he
          cases he
        · rw [uplinkEnqueueAll_eq]
    | close lock =>
      cases hc : w.up.pouchClosing with
      | true =>
        simp only [closeStep, uplinkStep, pouchUplinkClose, hc, if_true, processed_nil]
        simpa [Closing.entered] using h
      | false =>
        simp only [closeStep, uplinkStep, pouchUplinkClose, hc, processed_nil]
        apply h.flushed lock
        · simp [uplinkEnqueueAll_eq]
        · simp [uplinkEnqueueAll_eq]
    | process => exact h.processed crypto
    | start => exact h.transport crypto (Or.inl rfl)
    | fill maxlen => exact h.transport crypto (Or.inr (Or.inl ⟨maxlen, rfl⟩))
    | finish => exact h.transport crypto (Or.inr (Or.inr rfl))

end

structure CallInv (w : Closing κ) : Prop where
  early : w.early ≤ w.accepted.length
  idle : w.closer = .idle → w.early = 0
  closing : w.closer ≠ .idle → w.up.pouchClosing = true
  closed : w.up.pouchClosed = true → w.up.pouchClosing = true
  flushed : w.closer = .flushed .ok ∨ w.closer = .returned .ok → ∀ i ∈ w.opened, w.early ≤ i

theorem callInv_boot (k : κ) : CallInv (Closing.boot k) where
  early := Nat.le_refl _
  idle _ := rfl
  closing h := absurd rfl h
  closed h := by cases h
  flushed _ _ hi := by cases hi

theorem entered_accepted (w : Closing κ) (accepted : Option PouchEntry) (blocks : List Buf) :
    (w.entered accepted blocks).accepted = w.accepted++accepted.toList := by
  cases blocks <;> rfl

theorem entered_opened (w : Closing κ) (accepted : Option PouchEntry) (blocks : List Buf) :
    ∀ i ∈ (w.entered accepted blocks).opened, i ∈ w.opened ∨ i = w.accepted.length := by
  intro i hi
  cases blocks with
  | nil =>
    cases List.mem_append.mp hi with
    | inl hold => exact Or.inl hold
    | inr hnew =>
      cases accepted with
      | none => cases hnew
      | some entry => exact Or.inr (List.mem_singleton.mp hnew)
  | cons b blocks =>
    cases accepted with
    | none => cases hi
    | some entry => exact Or.inr (List.mem_singleton.mp hi)

section
variable (crypto : CryptoOps cfg κ)

@[simp] theorem closeStep_other_up (w : Closing κ) (op : UplinkOp) :
    (closeStep crypto w (.other op)).1.up = (uplinkStep crypto w.up op).1 := by
  simp only [closeStep]
  split
  · exact entered_up _ _ _
  · exact entered_up _ _ _
  · rfl

theorem closeStep_other_moved (w : Closing κ) (op : UplinkOp) :
    (closeStep crypto w (.other op)).1.moved =
      w.moved++movedBy w.waiting (uplinkStep crypto w.up op).2.taken := by
  simp only [closeStep]
  split
  · exact entered_moved _ _ _
  · exact entered_moved _ _ _
  · rfl

theorem closeStep_other_taken (w : Closing κ) (op : UplinkOp) :
    (closeStep crypto w (.other op)).1.taken =
      w.taken++(w.waiting.take (uplinkStep crypto w.up op).2.taken.length).flatten := by
  simp only [closeStep]
  split
  · exact entered_taken _ _ _
  · exact entered_taken _ _ _
  · rfl

/-- What anybody else does to the call: nothing, but new entries may come into the open
block. -/
theorem closeStep_other (w : Closing κ) (op : UplinkOp) :
    (closeStep crypto w (.other op)).1.closer = w.closer ∧
    (closeStep crypto w (.other op)).1.early = w.early ∧
    w.accepted <+: (closeStep crypto w (.other op)).1.accepted ∧
    ∀ i ∈ (closeStep crypto w (.other op)).1.opened, i ∈ w.opened ∨ i = w.accepted.length := by
  simp only [closeStep]
  split
  · rw [entered_accepted]
    exact ⟨entered_closer _ _ _, entered_early _ _ _, List.prefix_append _ _,
      entered_opened (w.processed _ _) _ _⟩
  · rw [entered_accepted]
    exact ⟨entered_closer _ _ _, entered_early _ _ _, List.prefix_append _ _,
      entered_opened (w.processed _ _) _ _⟩
  · exact ⟨rfl, rfl, List.prefix_refl _, fun i hi => Or.inl hi⟩

theorem inSession_flags (s : Uplink κ) {op : UplinkOp} (hop : (CloseOp.other op).InSession) :
    (uplinkStep crypto s op).1.sessionActive = s.sessionActive ∧
    (uplinkStep crypto s op).1.pouchClosing = s.pouchClosing ∧
    (op ≠ .process → (uplinkStep crypto s op).1.pouchClosed = s.pouchClosed) := by
  cases op with
  | enqueue block => exact ⟨rfl, rfl, fun _ => rfl⟩
  | write op => simp [uplinkStep, uplinkEnqueueAll_eq]
  | process =>
    cases processBlocks_cases crypto s with
    | inl hr => simp [uplinkStep, hr.2.2]
    | inr hr => simp [uplinkStep, hr.2]
  | close lock => exact hop.elim
  | start => exact hop.elim
  | fill maxlen => exact hop.elim
  | finish => exact hop.elim

theorem uplinkStep_closed (s : Uplink κ) (op : UplinkOp)
    (h : s.pouchClosed = true → s.pouchClosing = true) :
    (uplinkStep crypto s op).1.pouchClosed = true →
      (uplinkStep crypto s op).1.pouchClosing = true := by
  cases op with
  | enqueue block => exact h
  | write op =>
    simp only [uplinkStep, uplinkEnqueueAll_eq]
    exact h
  | close lock =>
    cases hc : s.pouchClosing with
    | true => simp [uplinkStep, pouchUplinkClose, hc]
    | false => simp [uplinkStep, pouchUplinkClose, hc, uplinkEnqueueAll_eq]
  | process =>
    cases processBlocks_cases crypto s with
    | inl hr => simp [uplinkStep, hr.2.2]
    | inr hr =>
      simp only [uplinkStep, hr.2, Bool.or_eq_true]
      exact fun hclosed => hclosed.elim h id
  | start =>
    cases uplinkStep_start crypto s with
    | busy active result same => rwa [same]
    | failed inactive result header k same => rwa [same]
    | begun inactive result H k1 k2 k3 session pouch made same => rwa [same]
  | fill maxlen =>
    simp only [uplinkStep, pouchUplinkFill]
    split
    · exact h
    · split <;> exact h
  | finish =>
    simp only [uplinkStep, pouchUplinkFinish]
    split <;> simp [endSession]

theorem closeStep_call {w : Closing κ} (hfollowed : Followed w) (h : CallInv w) (op : CloseOp)
    (hop : w.closer = .idle ∨ op.InSession) : CallInv (closeStep crypto w op).1 := by
  cases op with
  | setClosing =>
    simp only [closeStep]
    split
    · exact h
    · refine ⟨Nat.le_refl _, nofun, fun _ => rfl, fun _ => rfl, ?_⟩
      simp
  | entryBlockClose lock =>
    by_cases hc : w.closer = .flagged
    · have hblock := (closeStep_followed crypto hfollowed (.entryBlockClose lock)).unopened
      simp only [closeStep, hc, if_true] at hblock ⊢
      constructor
      · rw [entered_early]
        rw [entered_accepted]
        simpa using h.early
      · simp
      · intro _
        simp only [entered_up, uplinkEnqueueAll_eq]
        exact h.closing (by simp [hc])
      · simp only [entered_up, uplinkEnqueueAll_eq]
        exact h.closed
      · rw [entered_closer]
        intro hret
        have hlock : lock = .ok := by
          cases lock with
          | ok => rfl
          | err e => simp [entryBlockClose] at hret
        rw [hblock]
        · simp
        · simp only [entered_up, uplinkEnqueueAll_eq, hlock]
          exact entryBlockClose_ok hfollowed.entry
    · simpa [closeStep, hc] using h
  | submitWork =>
    simp only [closeStep]
    split
    · rename_i ret hc
      refine ⟨h.early, by simp, fun _ => h.closing (by simp [hc]), h.closed, ?_⟩
      intro hret
      apply h.flushed
      simpa [hc] using hret
    · exact h
  | other op =>
    obtain ⟨hcloser, hearly, haccepted, hopened⟩ := closeStep_other crypto w op
    constructor
    · rw [hearly]
      exact h.early.trans haccepted.length_le
    · rw [hcloser, hearly]
      exact h.idle
    · rw [hcloser, closeStep_other_up]
      intro hbusy
      rw [(inSession_flags crypto w.up (hop.resolve_left hbusy)).2.1]
      exact h.closing hbusy
    · rw [closeStep_other_up]
      exact uplinkStep_closed crypto w.up op h.closed
    · rw [hcloser, hearly]
      intro hret i hi
      cases hopened i hi with
      | inl hold => exact h.flushed hret i hold
      | inr hnew =>
        rw [hnew]
        exact h.early

end

/- When the pouch is closed, every entry that was accepted before the close has been moved
   to the transport queue, but for those that were gone before. -/
def Complete (gone : List Nat) (w : Closing κ) : Prop :=
  w.up.pouchClosed = true → ∀ i < w.early, i ∈ w.moved ∨ i ∈ gone

theorem mem_front_iff {front back : List Nat} {n m : Nat} (h : front++back = List.range n)
    (hm : m ≤ n) : (∀ i < m, i ∈ front) ↔ ∀ i ∈ back, m ≤ i := by
  have hnodup : (front++back).Nodup := h ▸ List.nodup_range
  constructor
  · intro hall i hi
    by_contra hlt
    exact List.disjoint_of_nodup_append hnodup (hall i (by omega)) hi
  · intro hall i hi
    have hmem : i ∈ front++back := by
      rw [h, List.mem_range]
      omega
    cases List.mem_append.mp hmem with
    | inl hfront => exact hfront
    | inr hback => exact absurd (hall i hback) (by omega)

structure InClose (gone : List Nat) (w : Closing κ) : Prop where
  active : w.up.sessionActive = true
  followed : Followed w
  call : CallInv w
  moved : ∀ i, i ∈ w.moved ∨ i ∈ gone ↔ i ∈ w.taken

section
variable (crypto : CryptoOps cfg κ)

structure SessionOp (w : Closing κ) (op : CloseOp) : Prop where
  inSession : op.InSession
  sent : ∀ b ∈ (closeStep crypto w op).2.taken, b.2.isSome

theorem closeStep_active {w : Closing κ} {op : CloseOp} (hop : op.InSession) :
    (closeStep crypto w op).1.up.sessionActive = w.up.sessionActive := by
  cases op with
  | setClosing =>
    simp only [closeStep]
    split <;> rfl
  | entryBlockClose lock =>
    simp only [closeStep]
    split
    · simp [uplinkEnqueueAll_eq]
    · rfl
  | submitWork =>
    simp only [closeStep]
    split <;> rfl
  | other op =>
    rw [closeStep_other_up]
    exact (inSession_flags crypto w.up hop).1

theorem closeStep_moved {w : Closing κ} {op : CloseOp}
    (hsent : ∀ b ∈ (closeStep crypto w op).2.taken, b.2.isSome) :
    ∃ new, (closeStep crypto w op).1.moved = w.moved++new ∧
      (closeStep crypto w op).1.taken = w.taken++new := by
  cases op with
  | setClosing =>
    exists []
    simp only [closeStep]
    split <;> simp
  | entryBlockClose lock =>
    exists []
    simp only [closeStep]
    split <;> simp
  | submitWork =>
    exists []
    simp only [closeStep]
    split <;> simp
  | other op =>
    refine ⟨_, ?_, closeStep_other_taken crypto w op⟩
    rw [closeStep_other_moved]
    exact congrArg _ (movedBy_all hsent)

theorem InClose.step {gone : List Nat} {w : Closing κ} {op : CloseOp}
    (hop : SessionOp crypto w op) (h : InClose gone w) : InClose gone (closeStep crypto w op).1 where
  active := (closeStep_active crypto hop.inSession).trans h.active
  followed := closeStep_followed crypto h.followed op
  call := closeStep_call crypto h.followed h.call op (Or.inr hop.inSession)
  moved i := by
    obtain ⟨new, hmoved, htaken⟩ := closeStep_moved crypto hop.sent
    rw [hmoved, htaken, List.mem_append, List.mem_append, ← h.moved i]
    tauto

/-- The run of process_blocks that closes the pouch completes it exactly if only later
entries are in the open block. -/
theorem process_complete {gone : List Nat} {w : Closing κ}
    (hop : SessionOp crypto w (.other .process)) (h : InClose gone w) (hcomplete : Complete gone w) :
    Complete gone (closeStep crypto w (.other .process)).1 ↔
      (w.up.pouchClosing = true → w.up.pouchClosed = false → ∀ i ∈ w.opened, w.early ≤ i) := by
  have hearly := (closeStep_other crypto w .process).2.1
  simp only [Complete, (h.step crypto hop).moved, hearly, closeStep_other_up,
    closeStep_other_taken]
  cases hclosed : w.up.pouchClosed with
  | true =>
    have hnone : (uplinkStep crypto w.up .process).2.taken = [] := by
      cases process_taken crypto w.up with
      | inl hall => exact absurd hall.2.1 (by simp [hclosed])
      | inr hnone => exact hnone.2.1
    simp only [hnone, List.length_nil, List.take_zero, List.flatten_nil, List.append_nil, ← h.moved]
    constructor
    · intro _ _ hc
      cases hc
    · exact fun _ _ => hcomplete hclosed
  | false =>
    cases process_taken crypto w.up with
    | inr hnone => exact absurd ⟨h.active, hclosed⟩ hnone.1
    | inl hall =>
      have hsets : (uplinkStep crypto w.up .process).1.pouchClosed = w.up.pouchClosing := by
        cases processBlocks_cases crypto w.up with
        | inl hr => simp [uplinkStep, hr.2.2]
        | inr hr => exact absurd ⟨h.active, hclosed⟩ hr.1
      rw [hsets, hall.2.2.1, ← h.followed.blocks.length_eq, List.take_length,
        mem_front_iff h.followed.order h.call.early]
      exact ⟨fun hi hc _ => hi hc, fun hi hc => hi hc rfl⟩

theorem closeStep_complete {gone : List Nat} {w : Closing κ} {op : CloseOp}
    (hop : SessionOp crypto w op) (h : InClose gone w) (hcomplete : Complete gone w) :
    Complete gone (closeStep crypto w op).1 ↔ (op = .other .process → w.up.pouchClosing = true →
      w.up.pouchClosed = false → ∀ i ∈ w.opened, w.early ≤ i) := by
  by_cases hprocess : op = .other .process
  · rw [hprocess] at hop ⊢
    rw [process_complete crypto hop h hcomplete]
    simp
  · refine ⟨fun _ he => absurd he hprocess, fun _ => ?_⟩
    cases op with
    | setClosing =>
      simp only [closeStep]
      split
      · exact hcomplete
      · rename_i hopen
        intro hclosed
        exact absurd (h.call.closed hclosed) hopen
    | entryBlockClose lock =>
      simp only [closeStep]
      split
      · simpa [Complete, uplinkEnqueueAll_eq] using hcomplete
      · exact hcomplete
    | submitWork =>
      simp only [closeStep]
      split <;> exact hcomplete
    | other op =>
      have hsame := (inSession_flags crypto w.up hop.inSession).2.2 fun he =>
        hprocess (congrArg CloseOp.other he)
      have hearly := (closeStep_other crypto w op).2.1
      intro hclosed i hi
      rw [closeStep_other_up, hsame] at hclosed
      rw [hearly] at hi
      rw [closeStep_other_moved, List.mem_append]
      cases hcomplete hclosed i hi with
      | inl hmoved => exact Or.inl (Or.inl hmoved)
      | inr hgone => exact Or.inr hgone

/-- Once entry_block_close has answered, pouch_uplink_close can only return this answer. -/
theorem answer_kept {w : Closing κ} {ret : Ret} (hcall : CallInv w)
    (h : w.closer = .flushed ret ∨ w.closer = .returned ret) (op : CloseOp) :
    (closeStep crypto w op).1.closer = .flushed ret ∨
      (closeStep crypto w op).1.closer = .returned ret := by
  have hbusy : w.closer ≠ .idle := by
    intro hidle
    simp [hidle] at h
  cases op with
  | setClosing => simpa [closeStep, hcall.closing hbusy] using h
  | entryBlockClose lock =>
    have hne : w.closer ≠ .flagged := by
      intro hflagged
      simp [hflagged] at h
    simpa [closeStep, hne] using h
  | submitWork =>
    cases h with
    | inl hflushed => simp [closeStep, hflushed]
    | inr hreturned => simp [closeStep, hreturned]
  | other op => rwa [(closeStep_other crypto w op).1]

def beforeClose (k : κ) (pre : List UplinkOp) : Closing κ :=
  closeFinal crypto (.boot k) (pre.map .other)

theorem beforeClose_inv (k : κ) (pre : List UplinkOp) :
    Followed (beforeClose crypto k pre) ∧ CallInv (beforeClose crypto k pre) ∧
    (beforeClose crypto k pre).closer = .idle := by
  induction pre using List.reverseRecOn with
  | nil => exact ⟨followed_boot k, callInv_boot k, rfl⟩
  | append_singleton pre op ih =>
    obtain ⟨hfollowed, hcall, hidle⟩ := ih
    have hsnoc : beforeClose crypto k (pre++[op]) =
        (closeStep crypto (beforeClose crypto k pre) (.other op)).1 := by
      rw [beforeClose, List.map_append, List.map_singleton, closeFinal, final_snoc, beforeClose]
    rw [hsnoc]
    exact ⟨closeStep_followed crypto hfollowed _, closeStep_call crypto hfollowed hcall _
      (Or.inl hidle), (closeStep_other crypto _ op).1.trans hidle⟩

theorem beforeClose_inClose {k : κ} {pre : List UplinkOp}
    (ha : (beforeClose crypto k pre).up.sessionActive = true) :
    InClose (beforeClose crypto k pre).taken (beforeClose crypto k pre) := by
  obtain ⟨hfollowed, hcall, -⟩ := beforeClose_inv crypto k pre
  refine ⟨ha, hfollowed, hcall, fun i => ?_⟩
  constructor
  · exact fun hi => hi.elim (hfollowed.moved i) id
  · exact Or.inr

theorem answer_run {gone : List Nat} {w : Closing κ} {ret : Ret} (h : InClose gone w)
    (hanswer : w.closer = .flushed ret ∨ w.closer = .returned ret) (ops : List CloseOp)
    (hops : ∀ u op v, ops = u++op :: v → SessionOp crypto (closeFinal crypto w u) op) :
    (closeFinal crypto w ops).closer = .flushed ret ∨
      (closeFinal crypto w ops).closer = .returned ret := by
  have hrun := guarded_invariant (closeStep crypto)
    (I := fun w => InClose gone w ∧ (w.closer = .flushed ret ∨ w.closer = .returned ret))
    (fun w op hop hw => ⟨hw.1.step crypto hop, answer_kept crypto hw.1.call hw.2 op⟩)
    w ⟨h, hanswer⟩ ops hops ops [] (by simp)
  exact hrun.2

theorem movedBy_block {accepted : List PouchEntry} {waiting : List (List Nat)}
    {taken : List (Buf × Option Buf)} {rest : List Buf} {i : Nat}
    (h : List.Forall₂ (EntriesIn accepted) waiting (taken.map Prod.fst++rest))
    (hi : i ∈ movedBy waiting taken) :
    ∃ places ∈ waiting, ∃ block encrypted, i ∈ places ∧ EntriesIn accepted places block ∧
      (block, some encrypted) ∈ taken := by
  induction taken generalizing waiting with
  | nil => simp [movedBy] at hi
  | cons b taken ih =>
    obtain ⟨block, result⟩ := b
    cases h with
    | @cons places _ waiting _ hhead htail =>
      simp only [movedBy, List.zip_cons_cons, List.flatMap_cons, List.mem_append] at hi ih
      cases hi with
      | inl hfirst =>
        cases result with
        | none => cases hfirst
        | some encrypted =>
          exact ⟨places, List.mem_cons_self, block, encrypted, hfirst, hhead, List.mem_cons_self⟩
      | inr hlater =>
        obtain ⟨ps, hps, block, encrypted, hmem, hin, htaken⟩ := ih htail hlater
        exact ⟨ps, List.mem_cons_of_mem _ hps, block, encrypted, hmem, hin,
          List.mem_cons_of_mem _ htaken⟩

def SubmitsEntry (s : Uplink κ) (entry : PouchEntry) : Prop :=
  ∃ block encrypted before after, blockPayload block = encodings (before++entry :: after) ∧
    Submits crypto s .process block encrypted

theorem processed_submits {w : Closing κ} (h : Followed w) {i : Nat}
    (hi : i ∈ movedBy w.waiting (uplinkStep crypto w.up .process).2.taken) :
    ∃ entry, w.accepted[i]? = some entry ∧ SubmitsEntry crypto w.up entry := by
  have hnone : (uplinkStep crypto w.up .process).2.enqueued = [] := rfl
  have hqueue := uplinkStep_queue crypto w.up .process
  rw [hnone, List.append_nil] at hqueue
  have hblocks := h.blocks
  rw [← hqueue] at hblocks
  obtain ⟨places, hplaces, block, encrypted, hmem, hin, htaken⟩ := movedBy_block hblocks hi
  have hlt : i < w.accepted.length := h.placed.1 places hplaces i hmem
  have hget := List.getElem?_eq_getElem hlt
  have hentry : w.accepted[i] ∈ numbered w.accepted places :=
    List.mem_filterMap.mpr ⟨i, hmem, hget⟩
  obtain ⟨before, after, hsplit⟩ := List.append_of_mem hentry
  refine ⟨_, hget, block, encrypted, before, after, ?_, (taken_submits crypto htaken).2⟩
  rw [← hsplit]
  exact hin (List.ne_nil_of_mem hmem)

theorem closeStep_accepted (w : Closing κ) (op : CloseOp) :
    w.accepted <+: (closeStep crypto w op).1.accepted := by
  cases op with
  | setClosing =>
    simp only [closeStep]
    split <;> exact List.prefix_refl _
  | entryBlockClose lock =>
    simp only [closeStep]
    split
    · rw [entered_accepted]
      exact List.prefix_append _ _
    · exact List.prefix_refl _
  | submitWork =>
    simp only [closeStep]
    split <;> exact List.prefix_refl _
  | other op => exact (closeStep_other crypto w op).2.2.1

/-- Only a run of process_blocks moves entries, and it submits them. -/
theorem closeStep_submits {w : Closing κ} (h : Followed w) (op : CloseOp) :
    ∀ i ∈ (closeStep crypto w op).1.moved, i ∈ w.moved ∨ op = .other .process ∧
      ∃ entry, w.accepted[i]? = some entry ∧ SubmitsEntry crypto w.up entry := by
  intro i hi
  cases op with
  | setClosing =>
    simp only [closeStep] at hi
    split at hi <;> exact Or.inl hi
  | entryBlockClose lock =>
    simp only [closeStep] at hi
    split at hi
    · rw [entered_moved] at hi
      exact Or.inl hi
    · exact Or.inl hi
  | submitWork =>
    simp only [closeStep] at hi
    split at hi <;> exact Or.inl hi
  | other op =>
    rw [closeStep_other_moved] at hi
    cases List.mem_append.mp hi with
    | inl hold => exact Or.inl hold
    | inr hnew =>
      obtain ⟨places, block, encrypted, htaken⟩ : ∃ places block encrypted,
          (places, block, some encrypted) ∈ w.waiting.zip (uplinkStep crypto w.up op).2.taken := by
        obtain ⟨⟨places, block, result⟩, hmem, hsome⟩ := List.mem_flatMap.mp hnew
        cases result with
        | none => cases hsome
        | some encrypted => exact ⟨places, block, encrypted, hmem⟩
      obtain ⟨rfl, -⟩ := taken_submits crypto (List.of_mem_zip htaken).2
      exact Or.inr ⟨rfl, processed_submits crypto h hnew⟩

/-- In every run, whatever counts as moved is an entry that was accepted, and a run of
process_blocks has submitted a block with it to the transport queue. -/
theorem moved_submitted (k : κ) (ops : List CloseOp) :
    ∀ i ∈ (closeFinal crypto (.boot k) ops).moved, ∃ u v entry, ops = u++.other .process :: v ∧
      (closeFinal crypto (.boot k) ops).accepted[i]? = some entry ∧
      SubmitsEntry crypto (closeFinal crypto (.boot k) u).up entry := by
  induction ops using List.reverseRecOn with
  | nil => exact fun i hi => by cases hi
  | append_singleton ops op ih =>
    have hfollowed := final_invariant (P := Followed) (closeStep crypto)
      (fun w op h => closeStep_followed crypto h op) _ ops (followed_boot k)
    obtain ⟨more, hmore⟩ := closeStep_accepted crypto (closeFinal crypto (.boot k) ops) op
    have hlater : ∀ i entry, (closeFinal crypto (.boot k) ops).accepted[i]? = some entry →
        (closeStep crypto (closeFinal crypto (.boot k) ops) op).1.accepted[i]? = some entry :=
      fun i entry hget => by
        rw [← hmore, List.getElem?_append_left (List.getElem?_eq_some_iff.mp hget).1, hget]
    rw [closeFinal, final_snoc, ← closeFinal]
    intro i hi
    rcases closeStep_submits crypto hfollowed op i hi with hold | ⟨rfl, entry, hget, hsubmits⟩
    · obtain ⟨u, v, entry, hsplit, hget, hsubmits⟩ := ih i hold
      exact ⟨u, v++[op], entry, by simp [hsplit], hlater i entry hget, hsubmits⟩
    · exact ⟨ops, [], entry, rfl, hlater i entry hget, hsubmits⟩

/-- If pouch_uplink_close returns 0, then the closed pouch is complete exactly if no run of
process_blocks after the setting of POUCH_CLOSING finds entries from before the close in a
block that entry_block_close has yet to enqueue. -/
theorem closed_pouch_complete_iff (k : κ) (pre : List UplinkOp) (ops : List CloseOp)
    (hactive : (beforeClose crypto k pre).up.sessionActive = true)
    (hops : ∀ op ∈ ops, op.InSession)
    (hsent : ∀ e ∈ closeTrace crypto (beforeClose crypto k pre) ops,
      ∀ b ∈ e.output.taken, b.2.isSome)
    (hret : (closeFinal crypto (beforeClose crypto k pre) ops).closer = .returned .ok) :
    (∀ u v, ops = u++v → Complete (beforeClose crypto k pre).taken
      (closeFinal crypto (beforeClose crypto k pre) u)) ↔
    ∀ u v, ops = u++.other .process :: v →
      (closeFinal crypto (beforeClose crypto k pre) u).closer = .flagged →
      (closeFinal crypto (beforeClose crypto k pre) u).up.pouchClosed = false →
      ∀ i ∈ (closeFinal crypto (beforeClose crypto k pre) u).opened,
        (closeFinal crypto (beforeClose crypto k pre) u).early ≤ i := by
  have hstart := beforeClose_inClose crypto hactive
  have hidle := (beforeClose_inv crypto k pre).2.2
  generalize beforeClose crypto k pre = w at *
  have hall : ∀ u op v, ops = u++op :: v → SessionOp crypto (closeFinal crypto w u) op := by
    intro u op v hsplit
    refine ⟨hops op (by simp [hsplit]), hsent (event (closeStep crypto) _ op) ?_⟩
    rw [hsplit, closeTrace, trace_append, trace_cons]
    simp
  have hcomplete : Complete w.taken w := by
    intro _ i hi
    rw [hstart.call.idle hidle] at hi
    cases hi
  rw [throughout_iff (closeStep crypto) (fun w op hop h => InClose.step crypto hop h)
    (fun w op hop h hc => closeStep_complete crypto hop h hc) w hstart hcomplete ops hall]
  constructor
  · intro h u v hsplit hflagged
    have hu := guarded_invariant (closeStep crypto) (fun w op hop h => InClose.step crypto hop h)
      w hstart ops hall u _ hsplit
    exact h u _ v hsplit rfl (hu.call.closing (by simp [hflagged]))
  · rintro h u op v hsplit rfl hclosing hclosed
    have hu := guarded_invariant (closeStep crypto) (fun w op hop h => InClose.step crypto hop h)
      w hstart ops hall u _ hsplit
    -- after entry_block_close, its answer is what pouch_uplink_close returns in the end
    have hflushed : ∀ ret, (closeFinal crypto w u).closer = .flushed ret ∨
        (closeFinal crypto w u).closer = .returned ret → ret = .ok := by
      intro ret hanswer
      have hend := answer_run crypto hu hanswer (.other .process :: v) fun u' op' v' hsplit' => by
        rw [closeFinal, ← final_append]
        exact hall (u++u') op' v' (by rw [hsplit, hsplit', List.append_assoc])
      rw [closeFinal, ← final_append, ← hsplit, ← closeFinal, hret] at hend
      cases hend with
      | inl hpending => cases hpending
      | inr hanswered => exact (Closer.returned.inj hanswered).symm
    cases hcloser : (closeFinal crypto w u).closer with
    | idle =>
      rw [hu.call.idle hcloser]
      exact fun i _ => Nat.zero_le i
    | flagged => exact h u v hsplit hcloser hclosed
    | flushed ret =>
      apply hu.call.flushed
      rw [hcloser, hflushed ret (Or.inl hcloser)]
      exact Or.inl rfl
    | returned ret =>
      apply hu.call.flushed
      rw [hcloser, hflushed ret (Or.inr hcloser)]
      exact Or.inr rfl

end

def entryBefore : List UplinkOp :=
  [.write (.entry (.write (some pathA) 0 (some [7]) .ok true)), .start]
def closeRun : List CloseOp := [.setClosing, .entryBlockClose .ok, .submitWork, .other .process]

theorem closed_pouch_complete_alone :
    (∀ u v, closeRun = u++v → Complete (beforeClose pullCrypto () entryBefore).taken
      (closeFinal pullCrypto (beforeClose pullCrypto () entryBefore) u)) ∧
    (closeFinal pullCrypto (beforeClose pullCrypto () entryBefore) closeRun).up.pouchClosed = true ∧
    (closeFinal pullCrypto (beforeClose pullCrypto () entryBefore) closeRun).moved = [0] := by
  refine ⟨(closed_pouch_complete_iff pullCrypto () entryBefore closeRun rfl ?_ ?_ rfl).mpr ?_,
    rfl, rfl⟩
  · simp [closeRun, CloseOp.InSession]
  · decide
  · intro u v hsplit hflagged
    -- the only run of process_blocks is the last step
    have hlast : u = [.setClosing, .entryBlockClose .ok, .submitWork] := by
      rcases u with _ | ⟨a, _ | ⟨b, _ | ⟨c, _ | ⟨d, u⟩⟩⟩⟩ <;> simp_all [closeRun]
    rw [hlast] at hflagged
    cases hflagged

def earlyCloseRun : List CloseOp :=
  [.setClosing, .other (.write (.streamOpen pathA 0 true true)),
    .other (.write (.streamWrite (some 0) [7] fun _ => true)),
    .other (.write (.streamClose (some 0))), .other .process,
    .entryBlockClose .ok, .submitWork, .other .process]

theorem early_close_incomplete :
    (beforeClose pullCrypto () entryBefore).up.sessionActive = true ∧
    (∀ op ∈ earlyCloseRun, op.InSession) ∧
    (∀ e ∈ closeTrace pullCrypto (beforeClose pullCrypto () entryBefore) earlyCloseRun,
      ∀ b ∈ e.output.taken, b.2.isSome) ∧
    (closeFinal pullCrypto (beforeClose pullCrypto () entryBefore) earlyCloseRun).closer =
      .returned .ok ∧
    (closeFinal pullCrypto (beforeClose pullCrypto () entryBefore) earlyCloseRun).up.transport =
      [[0x82, 0x01, 0x82, 0x00, 0x61, 0x61], [0, 6, 0xC1, 0, 0, 1, 0x61, 7]] ∧
    ¬ Complete (beforeClose pullCrypto () entryBefore).taken
      (closeFinal pullCrypto (beforeClose pullCrypto () entryBefore) earlyCloseRun) := by
  refine ⟨rfl, ?_, by decide, rfl, rfl, ?_⟩
  · simp [earlyCloseRun, CloseOp.InSession]
  · intro h
    exact absurd (h rfl 0 (by decide)) (by decide)

end Pouch
