import PouchNode.Entry
import PouchNode.Lib.Machine

/-! Runs of entry writes. The blocks that leave the module, then the open block, hold the
accepted entries whole and in order; the size field of a block is right as long as no block
is given away with more in it than the field can say. -/
namespace Pouch
open Machine Octets

abbrev EntryEvent := Event (Option Buf) EntryOp EntryOut

def EntryEvent.accepted (e : EntryEvent) : Option PouchEntry :=
  if e.output.ret = .ok then e.input.entry else none

section
variable (cfg : Config)

def entryTrace (ops : List EntryOp) : List EntryEvent := trace (entryStep cfg) none ops
def entryOpen (ops : List EntryOp) : Option Buf := final (entryStep cfg) none ops
def acceptedEntries (ops : List EntryOp) : List PouchEntry :=
  (entryTrace cfg ops).flatMap fun e => e.accepted.toList
def enqueuedBlocks (ops : List EntryOp) : List Buf :=
  (entryTrace cfg ops).flatMap fun e => e.output.enqueued

def openPayload (ops : List EntryOp) : Buf := ((entryOpen cfg ops).map blockPayload).getD []
def entryPayload (ops : List EntryOp) : Buf :=
  (enqueuedBlocks cfg ops).flatMap blockPayload++openPayload cfg ops

structure EntriesInOrder (ops : List EntryOp) : Prop where
  fifo : entryPayload cfg ops = encodings (acceptedEntries cfg ops)
  whole : ∃ (groups : List (List PouchEntry)) (last : List PouchEntry),
    groups.flatten++last = acceptedEntries cfg ops ∧
    (enqueuedBlocks cfg ops).map blockPayload = groups.map encodings ∧
    openPayload cfg ops = encodings last
  header : ∀ block ∈ enqueuedBlocks cfg ops, block.length ≤ cfg.maxPlaintextBlockSize ∧
    getBe16 block + 2 = block.length ∧ block[2]? = some 0xC0
  open_fits : ∀ block, entryOpen cfg ops = some block →
    block.length ≤ cfg.maxPlaintextBlockSize ∧ block[2]? = some 0xC0
  atomic : ∀ u op v, ops = u++op :: v →
    (entryStep cfg (entryOpen cfg u) op).2.ret ≠ .ok →
    entryPayload cfg (u++[op]) = entryPayload cfg u
  refused : ∀ e ∈ entryTrace cfg ops, ∀ path contentType data,
    e.input = .write (some path) contentType (some data) .ok true → data ≠ [] →
    (e.output.ret ≠ .ok ↔
      cfg.maxBlockPayloadSize < entryHeaderOverhead + strlen path + data.length)

end

/- An account of the open block, by the calls alone: how many bytes of entries are in it, if
   there is one. -/
def filledNew (cfg : Config) (size : Nat) (alloc : Bool) : Option Nat :=
  if alloc then some (if FitsBehind cfg 0 size then size else 0) else none

def EntryOp.fills (cfg : Config) (filled : Option Nat) : EntryOp → Option Nat
  | .write (some path) contentType (some data) .ok alloc =>
    let size := PouchEntry.size ⟨path, contentType, data⟩
    if data = [] then filled
    else
      match filled with
      | some n => if FitsBehind cfg n size then some (n + size) else filledNew cfg size alloc
      | none => filledNew cfg size alloc
  | .close .ok => none
  | _ => filled

def filledBy (cfg : Config) (ops : List EntryOp) : Option Nat := ops.foldl (EntryOp.fills cfg) none

def EntryOp.GivesAway (cfg : Config) (filled : Nat) : EntryOp → Prop
  | .write (some path) contentType (some data) .ok _ =>
    data ≠ [] ∧ ¬ FitsBehind cfg filled (PouchEntry.size ⟨path, contentType, data⟩)
  | .close .ok => True
  | _ => False

def SizesSayable (cfg : Config) (ops : List EntryOp) : Prop :=
  ∀ u op v, ops = u++op :: v → ∀ n, filledBy cfg u = some n → op.GivesAway cfg n → n ≤ 65534

def filledOf (block : Option Buf) : Option Nat := block.map fun b => (blockPayload b).length

section
variable {cfg : Config} {block : Option Buf} {op : EntryOp}

inductive EntryFlow (cfg : Config) (op : EntryOp) (block : Option Buf) : List Buf → Prop
  | kept (stays : ∀ n, filledOf block = some n → ¬ op.GivesAway cfg n) : EntryFlow cfg op block []
  | given (p : Buf) (before : block = some (openBlock 0xC0 p)) (gives : op.GivesAway cfg p.length) :
      EntryFlow cfg op block [blockFinish cfg (openBlock 0xC0 p)]

@[simp] theorem filledOf_none : filledOf none = none := rfl
@[simp] theorem filledOf_openBlock (p : Buf) : filledOf (some (openBlock 0xC0 p)) = some p.length := rfl

theorem filledOf_new (cfg : Config) (entry : PouchEntry) :
    filledOf (some (writeEntry cfg (openBlock 0xC0 []) entry).2) =
      filledNew cfg entry.size true := by
  rw [writeEntry_eq, List.length_nil, filledNew]
  split
  · simp [length_encoding]
  · simp

theorem entryWrite_flow (h : EntryShape block) (entry : PouchEntry) (hd : entry.data ≠ [])
    (alloc : Bool)
    (hop : op = .write (some entry.path) entry.contentType (some entry.data) .ok alloc) :
    filledOf (entryStep cfg block op).1 = op.fills cfg (filledOf block) ∧
      EntryFlow cfg op block (entryStep cfg block op).2.enqueued := by
  subst hop
  have hlen : entry.data.length ≠ 0 := by simpa using hd
  have hnew := filledOf_new cfg entry
  cases block with
  | none =>
    constructor
    · cases alloc with
      | false => simp [entryStep, pouchUplinkEntryWrite, hlen, hd, blockAlloc_eq, EntryOp.fills,
          filledNew]
      | true => simpa [entryStep, pouchUplinkEntryWrite, hlen, hd, blockAlloc_eq, EntryOp.fills]
    · cases alloc with
      | false =>
        simp only [entryStep, pouchUplinkEntryWrite, hlen, if_false, blockAlloc_eq,
          Bool.false_eq_true]
        exact .kept (by simp)
      | true =>
        simp only [entryStep, pouchUplinkEntryWrite, hlen, if_false, blockAlloc_eq, if_true]
        exact .kept (by simp)
  | some b =>
    obtain ⟨p, rfl⟩ := h b rfl
    have hwrite := writeEntry_eq cfg p entry
    by_cases hfit : FitsBehind cfg p.length entry.size
    · rw [if_pos hfit] at hwrite
      have hstep : entryStep cfg (some (openBlock 0xC0 p))
          (.write (some entry.path) entry.contentType (some entry.data) .ok alloc) =
            (some (openBlock 0xC0 (p++entry.encoding)), ⟨.ok, []⟩) := by
        simp [entryStep, pouchUplinkEntryWrite, hlen, hwrite]
      rw [hstep]
      constructor
      · simp [EntryOp.fills, hd, hfit, length_encoding]
      · refine .kept fun n hn hgives => hgives.2 ?_
        rw [filledOf_openBlock, Option.some.injEq] at hn
        exact hn ▸ hfit
    · rw [if_neg hfit] at hwrite
      have hgives : EntryOp.GivesAway cfg p.length
          (.write (some entry.path) entry.contentType (some entry.data) .ok alloc) := ⟨hd, hfit⟩
      cases alloc with
      | false =>
        have hstep : entryStep cfg (some (openBlock 0xC0 p))
            (.write (some entry.path) entry.contentType (some entry.data) .ok false) =
              (none, ⟨.err .enomem, [blockFinish cfg (openBlock 0xC0 p)]⟩) := by
          simp [entryStep, pouchUplinkEntryWrite, hlen, hwrite, blockAlloc_eq]
        rw [hstep]
        exact ⟨by simp [EntryOp.fills, hd, hfit, filledNew], .given p rfl hgives⟩
      | true =>
        have hstep : entryStep cfg (some (openBlock 0xC0 p))
            (.write (some entry.path) entry.contentType (some entry.data) .ok true) =
              (some (writeEntry cfg (openBlock 0xC0 []) entry).2,
                ⟨(writeEntry cfg (openBlock 0xC0 []) entry).1,
                  [blockFinish cfg (openBlock 0xC0 p)]⟩) := by
          simp [entryStep, pouchUplinkEntryWrite, hlen, hwrite, blockAlloc_eq]
        rw [hstep]
        exact ⟨by simpa [EntryOp.fills, hd, hfit], .given p rfl hgives⟩

/-- The account goes along with the block, and says which block a call gives away. -/
theorem entryStep_flow (cfg : Config) (h : EntryShape block) (op : EntryOp) :
    filledOf (entryStep cfg block op).1 = op.fills cfg (filledOf block) ∧
      EntryFlow cfg op block (entryStep cfg block op).2.enqueued := by
  cases op with
  | close lock =>
    cases lock with
    | err e => exact ⟨rfl, .kept fun n _ hgives => hgives⟩
    | ok =>
      cases block with
      | none => exact ⟨rfl, .kept (by simp)⟩
      | some b =>
        obtain ⟨p, rfl⟩ := h b rfl
        have hstep : entryStep cfg (some (openBlock 0xC0 p)) (.close .ok) =
            (none, ⟨.ok, [blockFinish cfg (openBlock 0xC0 p)]⟩) := by
          simp [entryStep, entryBlockClose, blockSizeGet, bufSizeGet]
        rw [hstep]
        exact ⟨rfl, .given p rfl trivial⟩
  | write path contentType data lock alloc =>
    cases path with
    | none => exact ⟨rfl, .kept fun n _ hgives => hgives⟩
    | some path =>
      cases data with
      | none => exact ⟨rfl, .kept fun n _ hgives => hgives⟩
      | some data =>
        by_cases hd : data = []
        · subst hd
          cases lock with
          | err e => exact ⟨rfl, .kept fun n _ hgives => hgives⟩
          | ok => exact ⟨rfl, .kept fun n _ hgives => hgives.1 rfl⟩
        · cases lock with
          | err e =>
            have hlen : data.length ≠ 0 := by simpa using hd
            simp only [entryStep, pouchUplinkEntryWrite, hlen, if_false]
            exact ⟨rfl, .kept fun n _ hgives => hgives⟩
          | ok => exact entryWrite_flow h ⟨path, contentType, data⟩ hd alloc rfl

end

section
variable {cfg : Config} {block : Option Buf} {old : List PouchEntry}

theorem OpenEntries.open_eq (h : OpenEntries cfg block old) {b : Buf} (hb : block = some b) :
    b = openBlock 0xC0 (encodings old) := by
  cases h.block_eq with
  | inl heq => simpa [hb] using heq
  | inr hnone => simp [hb] at hnone

/-- Whether an entry is accepted only depends on the block it would be alone in. -/
theorem pouchUplinkEntryWrite_refused (h : OpenEntries cfg block old) {path : CString}
    {contentType : UInt16} {data : Buf} (hd : data ≠ [])
    (hs : PouchEntry.size ⟨path, contentType, data⟩ < 2^cfg.sizeBits) :
    (pouchUplinkEntryWrite cfg (some path) contentType (some data) .ok true block).1 ≠ .ok ↔
      cfg.maxBlockPayloadSize < PouchEntry.size ⟨path, contentType, data⟩ := by
  have halone : (writeEntry cfg (openBlock 0xC0 []) ⟨path, contentType, data⟩).1 ≠ .ok ↔
      cfg.maxBlockPayloadSize < PouchEntry.size ⟨path, contentType, data⟩ := by
    rw [writeEntry_new hs]
    by_cases hfit : PouchEntry.size ⟨path, contentType, data⟩ ≤ cfg.maxBlockPayloadSize
    · simp [hfit]
    · simp [hfit, not_le.mp hfit]
  have hw := pouchUplinkEntryWrite_cases cfg ⟨path, contentType, data⟩ .ok true block
  generalize pouchUplinkEntryWrite cfg (some path) contentType (some data) .ok true block = r
    at hw ⊢
  cases hw with
  | refused e why => simp [hd] at why
  | fresh before => exact halone
  | dropped b before full failed => cases failed
  | replaced b before full => exact halone
  | added b written before fits =>
    refine iff_of_false (fun h => h rfl) (not_lt.mpr ?_)
    obtain rfl := h.open_eq before
    by_contra hlarge
    rw [writeEntry_openBlock h.fits hs, if_neg (by omega)] at fits
    cases fits

def EntryEffect (cfg : Config) (old : List PouchEntry) (accepted : Option PouchEntry)
    (block : Option Buf) (enqueued : List Buf) : Prop :=
  ∃ (flushed : List (List PouchEntry)) (new : List PouchEntry),
    (flushed = [] ∨ flushed = [old]) ∧ OpenEntries cfg block new ∧
    enqueued = flushed.map (closedBlock 0xC0 ∘ encodings) ∧
    flushed.flatten++new = old++accepted.toList

theorem openEntries_none : OpenEntries cfg none [] := ⟨Nat.zero_le _, Or.inr ⟨rfl, rfl⟩⟩

theorem EntryEffect.kept (h : OpenEntries cfg block old) : EntryEffect cfg old none block [] :=
  ⟨[], old, Or.inl rfl, h, rfl, by simp⟩

theorem EntryEffect.flushed (accepted : Option PouchEntry)
    (h : OpenEntries cfg block accepted.toList) :
    EntryEffect cfg old accepted block [closedBlock 0xC0 (encodings old)] :=
  ⟨[old], accepted.toList, Or.inr rfl, h, rfl, by simp⟩

theorem EntryEffect.added {entry : PouchEntry}
    (hlen : (encodings old).length + entry.size ≤ cfg.maxBlockPayloadSize) :
    EntryEffect cfg old (some entry) (some (openBlock 0xC0 (encodings old++entry.encoding))) [] := by
  refine ⟨[], old++[entry], Or.inl rfl, ⟨?_, Or.inl ?_⟩, rfl, rfl⟩
  · simpa [length_encoding] using hlen
  · simp

theorem writeEntry_new_effect {entry : PouchEntry} (hs : entry.size < 2^cfg.sizeBits) :
    OpenEntries cfg (some (writeEntry cfg (openBlock 0xC0 []) entry).2)
      (if (writeEntry cfg (openBlock 0xC0 []) entry).1 = .ok then some entry else none).toList := by
  rw [writeEntry_new hs]
  by_cases hfit : entry.size ≤ cfg.maxBlockPayloadSize
  · simp only [hfit, if_true, Option.toList_some]
    exact ⟨by simpa [length_encoding] using hfit, Or.inl (by simp)⟩
  · simp only [hfit, if_false]
    exact ⟨Nat.zero_le _, Or.inl rfl⟩

theorem pouchUplinkEntryWrite_effect (h : OpenEntries cfg block old) (entry : PouchEntry)
    (hs : entry.size < 2^cfg.sizeBits) (lock : Ret) (alloc : Bool) :
    EntryEffect cfg old
      (if (pouchUplinkEntryWrite cfg (some entry.path) entry.contentType (some entry.data) lock
        alloc block).1 = .ok then some entry else none)
      (pouchUplinkEntryWrite cfg (some entry.path) entry.contentType (some entry.data) lock
        alloc block).2.1
      (pouchUplinkEntryWrite cfg (some entry.path) entry.contentType (some entry.data) lock
        alloc block).2.2 := by
  have hnew := writeEntry_new_effect hs
  have hw := pouchUplinkEntryWrite_cases cfg entry lock alloc block
  generalize pouchUplinkEntryWrite cfg (some entry.path) entry.contentType (some entry.data) lock
    alloc block = r at hw ⊢
  cases hw with
  | refused e why => exact EntryEffect.kept h
  | fresh before =>
    cases h.block_eq with
    | inl hb => simp [before] at hb
    | inr hb =>
      obtain ⟨-, rfl⟩ := hb
      exact ⟨[], _, Or.inl rfl, hnew, rfl, rfl⟩
  | added b written before fits =>
    obtain rfl := h.open_eq before
    rw [writeEntry_openBlock h.fits hs] at fits
    split at fits
    · next hroom =>
      cases fits
      exact EntryEffect.added hroom
    · cases fits
  | dropped b before full failed =>
    obtain rfl := h.open_eq before
    simpa [blockFinish_openBlock h.fits] using EntryEffect.flushed none openEntries_none
  | replaced b before full =>
    obtain rfl := h.open_eq before
    rw [blockFinish_openBlock h.fits]
    exact EntryEffect.flushed _ hnew

theorem entryBlockClose_effect (h : OpenEntries cfg block old) (lock : Ret) :
    EntryEffect cfg old none (entryBlockClose cfg lock block).2.1
      (entryBlockClose cfg lock block).2.2 := by
  cases lock with
  | err e => exact EntryEffect.kept h
  | ok =>
    cases h.block_eq with
    | inr hb =>
      obtain ⟨rfl, rfl⟩ := hb
      exact EntryEffect.kept h
    | inl hb =>
      subst hb
      simpa [entryBlockClose, blockSizeGet, bufSizeGet, blockFinish_openBlock h.fits] using
        EntryEffect.flushed none openEntries_none

/-- What a call can do: the open block's entries leave as a finished block or they stay,
and an accepted entry comes after them. -/
theorem entryStep_effect (h : OpenEntries cfg block old) (op : EntryOp)
    (hop : op.Addressable cfg) :
    EntryEffect cfg old (EntryEvent.accepted (event (entryStep cfg) block op))
      (entryStep cfg block op).1 (entryStep cfg block op).2.enqueued := by
  cases op with
  | close lock =>
    have hnone : EntryEvent.accepted (event (entryStep cfg) block (.close lock)) = none := ite_self _
    rw [hnone]
    exact entryBlockClose_effect h lock
  | write path contentType data lock alloc =>
    match path, data with
    | some path, some data =>
      exact pouchUplinkEntryWrite_effect h ⟨path, contentType, data⟩ (hop _ rfl) lock alloc
    | none, _ => exact EntryEffect.kept h
    | some path, none => exact EntryEffect.kept h

structure EntryRun (cfg : Config) (tr : List EntryEvent) (block : Option Buf)
    (groups : List (List PouchEntry)) (last : List PouchEntry) : Prop where
  accepted : groups.flatten++last = tr.flatMap fun e => e.accepted.toList
  enqueued : tr.flatMap (fun e => e.output.enqueued) = groups.map (closedBlock 0xC0 ∘ encodings)
  fits : ∀ g ∈ groups, (encodings g).length ≤ cfg.maxBlockPayloadSize
  current : OpenEntries cfg block last

theorem entryRun (cfg : Config) (ops : List EntryOp) (hops : ∀ op ∈ ops, op.Addressable cfg) :
    ∃ groups last, EntryRun cfg (entryTrace cfg ops) (entryOpen cfg ops) groups last := by
  refine trace_invariant (entryStep cfg) none
    (P := fun tr block => ∃ groups last, EntryRun cfg tr block groups last) ?_ ?_ ops hops
  · exact ⟨[], [], ⟨rfl, rfl, by simp, openEntries_none⟩⟩
  · intro tr block op hop hrun
    obtain ⟨groups, last, h⟩ := hrun
    obtain ⟨flushed, new, hf, hopen, henq, hacc⟩ := entryStep_effect h.current op hop
    refine ⟨groups++flushed, new, ⟨?_, ?_, ?_, hopen⟩⟩
    · rw [List.flatten_append, List.append_assoc, hacc, ← List.append_assoc, h.accepted,
        List.flatMap_append, List.flatMap_singleton]
    · rw [List.flatMap_append, List.flatMap_singleton, h.enqueued, List.map_append, ← henq]
      rfl
    · intro g hg
      cases List.mem_append.mp hg with
      | inl hin => exact h.fits g hin
      | inr hin =>
        cases hf with
        | inl hnil => simp [hnil] at hin
        | inr hone =>
          have hlast : g = last := by simpa [hone] using hin
          rw [hlast]
          exact h.current.fits

theorem openPayload_eq {ops : List EntryOp} {last : List PouchEntry}
    (h : OpenEntries cfg (entryOpen cfg ops) last) : openPayload cfg ops = encodings last := by
  cases h.block_eq with
  | inl hb => simp [openPayload, hb]
  | inr hb => simp [openPayload, hb]

theorem enqueuedBlocks_payload {groups : List (List PouchEntry)} {ops : List EntryOp}
    (h : enqueuedBlocks cfg ops = groups.map (closedBlock 0xC0 ∘ encodings)) :
    (enqueuedBlocks cfg ops).map blockPayload = groups.map encodings := by
  rw [h, List.map_map]
  rfl

theorem encodings_flatten (groups : List (List PouchEntry)) :
    (groups.map encodings).flatten = encodings groups.flatten := by
  induction groups with
  | nil => rfl
  | cons g gs ih => simp [ih]

theorem entryPayload_eq (cfg : Config) (ops : List EntryOp)
    (hops : ∀ op ∈ ops, op.Addressable cfg) :
    entryPayload cfg ops = encodings (acceptedEntries cfg ops) := by
  obtain ⟨groups, last, h⟩ := entryRun cfg ops hops
  have hdone := enqueuedBlocks_payload h.enqueued
  calc entryPayload cfg ops
      = ((enqueuedBlocks cfg ops).map blockPayload).flatten++openPayload cfg ops := by
        rw [entryPayload, List.flatMap_def]
    _ = encodings groups.flatten++encodings last := by
        rw [hdone, encodings_flatten, openPayload_eq h.current]
    _ = encodings (acceptedEntries cfg ops) := by
        rw [← encodings_append, h.accepted, acceptedEntries]

theorem acceptedEntries_refused {u : List EntryOp} {op : EntryOp}
    (h : (entryStep cfg (entryOpen cfg u) op).2.ret ≠ .ok) :
    acceptedEntries cfg (u++[op]) = acceptedEntries cfg u := by
  have hnone : EntryEvent.accepted (event (entryStep cfg) (entryOpen cfg u) op) = none := if_neg h
  rw [acceptedEntries, entryTrace, trace_append, List.flatMap_append, trace_cons, trace_nil,
    List.flatMap_singleton]
  exact (congrArg (_++·.toList) hnone).trans (List.append_nil _)

theorem entryOpen_filled (cfg : Config) (ops : List EntryOp) :
    EntryShape (entryOpen cfg ops) ∧ filledOf (entryOpen cfg ops) = filledBy cfg ops := by
  induction ops using List.reverseRecOn with
  | nil => exact ⟨EntryShape.none, rfl⟩
  | append_singleton ops op ih =>
    obtain ⟨hshape, hfilled⟩ := ih
    have hnext := (entryStep_flow cfg hshape op).1
    rw [hfilled] at hnext
    rw [entryOpen, final_snoc, filledBy, List.foldl_append]
    exact ⟨(entryStep_shape cfg hshape op).1, hnext⟩

theorem mem_enqueuedBlocks {ops : List EntryOp} {b : Buf} :
    b ∈ enqueuedBlocks cfg ops ↔ ∃ u op v, ops = u++op :: v ∧
      b ∈ (entryStep cfg (entryOpen cfg u) op).2.enqueued := by
  rw [enqueuedBlocks, List.mem_flatMap]
  constructor
  · rintro ⟨e, he, hb⟩
    obtain ⟨u, op, v, hsplit, rfl⟩ := mem_trace _ he
    exact ⟨u, op, v, hsplit, hb⟩
  · rintro ⟨u, op, v, rfl, hb⟩
    refine ⟨event (entryStep cfg) (entryOpen cfg u) op, ?_, hb⟩
    rw [entryTrace, trace_append]
    exact List.mem_append_right _ List.mem_cons_self

/-- The account tells how much is in the blocks that are given away. -/
theorem sizesSayable_iff (cfg : Config) (ops : List EntryOp) :
    SizesSayable cfg ops ↔ ∀ b ∈ enqueuedBlocks cfg ops, (blockPayload b).length ≤ 65534 := by
  constructor
  · intro h b hb
    obtain ⟨u, op, v, hsplit, hb⟩ := mem_enqueuedBlocks.mp hb
    obtain ⟨hshape, hfilled⟩ := entryOpen_filled cfg u
    have hflow := (entryStep_flow cfg hshape op).2
    generalize (entryStep cfg (entryOpen cfg u) op).2.enqueued = enqueued at hflow hb
    cases hflow with
    | kept stays => cases hb
    | given p before gives =>
      obtain rfl := List.mem_singleton.mp hb
      exact h u op v hsplit p.length (by rw [← hfilled, before, filledOf_openBlock]) gives
  · intro h u op v hsplit n hn hgives
    obtain ⟨hshape, hfilled⟩ := entryOpen_filled cfg u
    have hflow := (entryStep_flow cfg hshape op).2
    have hmem : ∀ b ∈ (entryStep cfg (entryOpen cfg u) op).2.enqueued,
        (blockPayload b).length ≤ 65534 :=
      fun b hb => h b (mem_enqueuedBlocks.mpr ⟨u, op, v, hsplit, hb⟩)
    generalize (entryStep cfg (entryOpen cfg u) op).2.enqueued = enqueued at hflow hmem
    cases hflow with
    | kept stays => exact absurd hgives (stays n (hfilled.trans hn))
    | given p before gives =>
      obtain rfl : p.length = n := by
        rw [before, filledOf_openBlock, hn, Option.some.injEq] at hfilled
        exact hfilled
      exact hmem _ List.mem_cons_self

theorem closedBlock_size_iff (id : UInt8) (payload : Buf) :
    getBe16 (closedBlock id payload) + 2 = (closedBlock id payload).length ↔
      payload.length ≤ 65534 := by
  rw [length_closedBlock, closedBlock, getBe16_putBe16_append]
  omega

/-- A run in which all sizes can be said keeps the promise. -/
theorem entries_in_order {ops : List EntryOp} (hops : ∀ op ∈ ops, op.Addressable cfg)
    (hsizes : SizesSayable cfg ops) : EntriesInOrder cfg ops := by
  obtain ⟨groups, last, h⟩ := entryRun cfg ops hops
  refine ⟨entryPayload_eq cfg ops hops, ?_, ?_, ?_, ?_, ?_⟩
  · exact ⟨groups, last, h.accepted, enqueuedBlocks_payload h.enqueued, openPayload_eq h.current⟩
  · intro block hb
    have hsize := (sizesSayable_iff cfg ops).mp hsizes block hb
    rw [enqueuedBlocks, h.enqueued] at hb
    obtain ⟨g, hg, rfl⟩ := List.mem_map.mp hb
    have hfit := h.fits g hg
    refine ⟨?_, (closedBlock_size_iff 0xC0 (encodings g)).mpr hsize, rfl⟩
    simp only [Function.comp_apply, length_closedBlock, Config.maxPlaintextBlockSize]
    omega
  · intro block hb
    cases h.current.block_eq with
    | inl hopen =>
      rw [hb, Option.some.injEq] at hopen
      have hfit := h.current.fits
      subst hopen
      refine ⟨?_, rfl⟩
      simp only [length_openBlock, Config.maxPlaintextBlockSize]
      omega
    | inr hnone => simp [hnone.1] at hb
  · intro u op v hsplit hret
    have hu : ∀ op' ∈ u++[op], op'.Addressable cfg := by
      intro op' hmem
      exact hops op' (by rw [hsplit]; simp at hmem ⊢; tauto)
    rw [entryPayload_eq cfg _ hu, acceptedEntries_refused hret,
      entryPayload_eq cfg u fun op' hmem => hu op' (List.mem_append_left _ hmem)]
  · intro e he path contentType data hin hdata
    obtain ⟨u, op, v, hsplit, rfl⟩ := mem_trace _ he
    obtain ⟨groups', last', h'⟩ := entryRun cfg u fun op' hmem =>
      hops op' (by rw [hsplit]; exact List.mem_append_left _ hmem)
    have hop := hops op (by rw [hsplit]; simp)
    have hin' : op = .write (some path) contentType (some data) .ok true := hin
    subst hin'
    exact pouchUplinkEntryWrite_refused h'.current hdata (hop _ rfl)

/-- Every run keeps the promise exactly if it gives away no block that is longer than its size
field can say. -/
theorem entries_in_order_iff (cfg : Config) (ops : List EntryOp)
    (hops : ∀ op ∈ ops, op.Addressable cfg) : EntriesInOrder cfg ops ↔ SizesSayable cfg ops := by
  constructor
  · intro h
    obtain ⟨groups, last, hrun⟩ := entryRun cfg ops hops
    rw [sizesSayable_iff]
    intro b hb
    have hheader := (h.header b hb).2.1
    rw [enqueuedBlocks, hrun.enqueued] at hb
    obtain ⟨g, -, rfl⟩ := List.mem_map.mp hb
    exact (closedBlock_size_iff 0xC0 (encodings g)).mp hheader
  · exact entries_in_order hops

/-- With blocks of at most 32768 bytes no run gives such a block away. -/
theorem sizesSayable_of_small (hmax : cfg.maxBlockPayloadSize ≤ 32768) {ops : List EntryOp}
    (hops : ∀ op ∈ ops, op.Addressable cfg) : SizesSayable cfg ops := by
  obtain ⟨groups, last, hrun⟩ := entryRun cfg ops hops
  rw [sizesSayable_iff]
  intro b hb
  rw [enqueuedBlocks, hrun.enqueued] at hb
  obtain ⟨g, hg, rfl⟩ := List.mem_map.mp hb
  exact (hrun.fits g hg).trans (hmax.trans (by decide))

end

def writeAndClose (entry : PouchEntry) : List EntryOp :=
  [.write (some entry.path) entry.contentType (some entry.data) .ok true, .close .ok]

theorem enqueuedBlocks_writeAndClose (cfg : Config) {entry : PouchEntry} (hd : entry.data ≠ [])
    (hs : entry.size ≤ cfg.maxBlockPayloadSize) :
    enqueuedBlocks cfg (writeAndClose entry) = [closedBlock 0xC0 entry.encoding] := by
  have hlen : entry.data.length ≠ 0 := by simpa using hd
  have hbits := cfg.maxCiphertextBlockSize_lt
  simp only [Config.maxCiphertextBlockSize, Config.maxPlaintextBlockSize] at hbits
  have hsize : entry.size < 2^cfg.sizeBits := by omega
  have hnew := writeEntry_new hsize
  have hfit : entry.encoding.length ≤ cfg.maxBlockPayloadSize := by rwa [length_encoding]
  rw [if_pos hs] at hnew
  simp [enqueuedBlocks, entryTrace, writeAndClose, event, entryStep, pouchUplinkEntryWrite, hlen,
    blockAlloc_eq, hnew, entryBlockClose, blockSizeGet, bufSizeGet, blockFinish_openBlock hfit]

def longEntry : PouchEntry := ⟨pathA, 0, List.replicate 65529 0⟩

theorem size_replicate (path : CString) (contentType : UInt16) (n : Nat) (b : UInt8) :
    PouchEntry.size ⟨path, contentType, List.replicate n b⟩ = 5 + strlen path + n := by
  simp [PouchEntry.size, entryHeaderOverhead]

theorem longEntry_size : longEntry.size = 65535 := size_replicate _ _ _ _

theorem addressable_writeAndClose {cfg : Config} {entry : PouchEntry}
    (hs : entry.size < 2^cfg.sizeBits) : ∀ op ∈ writeAndClose entry, op.Addressable cfg := by
  intro op hop written hwritten
  cases List.mem_cons.mp hop with
  | inl hwrite =>
    subst hwrite
    cases hwritten
    exact hs
  | inr hclose =>
    obtain rfl := List.mem_singleton.mp hclose
    cases hwritten

def longConfig : Config := .ofLog 16 .none

/-- With the blocks of 65536 bytes that Kconfig takes, a run whose one block is short. -/
theorem short_entries_in_order :
    (∀ op ∈ writeAndClose ⟨pathA, 0, [7]⟩, op.Addressable longConfig) ∧
    EntriesInOrder longConfig (writeAndClose ⟨pathA, 0, [7]⟩) := by
  have hops : ∀ op ∈ writeAndClose ⟨pathA, 0, [7]⟩, op.Addressable longConfig :=
    addressable_writeAndClose (by decide)
  refine ⟨hops, (entries_in_order_iff longConfig _ hops).mpr ?_⟩
  intro u op v hsplit n hn hgives
  match u with
  | [] => cases hn
  | [write] =>
    obtain ⟨rfl, -⟩ := List.cons.inj hsplit
    have hfilled : filledBy longConfig [.write (some pathA) 0 (some [7]) .ok true] = some 7 := by
      decide
    obtain rfl : 7 = n := Option.some.inj (hfilled.symm.trans hn)
    decide
  | _ :: _ :: _ => simp [writeAndClose] at hsplit

theorem long_entries_not_in_order :
    (∀ op ∈ writeAndClose longEntry, op.Addressable longConfig) ∧
    ¬ EntriesInOrder longConfig (writeAndClose longEntry) := by
  have hops : ∀ op ∈ writeAndClose longEntry, op.Addressable longConfig :=
    addressable_writeAndClose (lt_of_eq_of_lt longEntry_size (by decide))
  refine ⟨hops, fun h => ?_⟩
  have hd : longEntry.data ≠ [] := List.ne_nil_of_length_eq_add_one List.length_replicate
  have hblocks := enqueuedBlocks_writeAndClose longConfig hd
    (le_of_eq_of_le longEntry_size (by decide))
  have hheader := (h.header (closedBlock 0xC0 longEntry.encoding) (by simp [hblocks])).2.1
  rw [closedBlock_size_iff, length_encoding, longEntry_size] at hheader
  exact absurd hheader (by decide)

end Pouch
