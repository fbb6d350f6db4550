import PouchNode.Block

/-! Uplink entries (entry.c): small records that are packed into one open block, which is
finished and enqueued when the next entry does not fit or the pouch closes. What the
functions hand to uplink_enqueue is returned as a list. -/
namespace Pouch
open Octets

structure CString where
  chars : Buf
  no_nul : 0 ∉ chars
  deriving DecidableEq

def strlen (s : CString) : Nat := s.chars.length

def pathA : CString := ⟨[0x61], by decide⟩

def entryHeaderOverhead : Nat := 5

structure PouchEntry where
  path : CString
  contentType : UInt16
  data : Buf
  deriving DecidableEq

def PouchEntry.encoding (entry : PouchEntry) : Buf :=
  putBe16 entry.data.length++putBe16 entry.contentType.toNat++[UInt8.ofNat (strlen entry.path)]++
    entry.path.chars++entry.data

section
variable (cfg : Config)

def writeEntry (block : Buf) (entry : PouchEntry) : Ret × Buf :=
  let pathlen := strlen entry.path
  if blockSpaceGet cfg block <
      (entryHeaderOverhead + pathlen + entry.data.length) % 2^cfg.sizeBits then
    (.err .enomem, block)
  else
    let block := bufWrite block (putBe16 entry.data.length)
    let block := bufWrite block (putBe16 entry.contentType.toNat)
    let block := bufWrite block [UInt8.ofNat pathlen]
    let block := bufWrite block entry.path.chars
    (.ok, bufWrite block entry.data)

/- A pointer is none when it is NULL. The two calls of block_alloc exclude each other: a
   block that is new is not replaced. -/
def pouchUplinkEntryWrite (path : Option CString) (contentType : UInt16) (data : Option Buf)
    (lock : Ret) (alloc : Bool) (block : Option Buf) : Ret × Option Buf × List Buf :=
  match path, data with
  | some path, some data =>
    if data.length = 0 then (.err .einval, block, [])
    else
      match lock with
      | .err e => (.err e, block, [])
      | .ok =>
        let entry : PouchEntry := ⟨path, contentType, data⟩
        match block with
        | none =>
          match blockAlloc alloc with
          | none => (.err .enomem, none, [])
          | some new =>
            let (err, new) := writeEntry cfg new entry
            (err, some new, [])
        | some block =>
          match writeEntry cfg block entry with
          | (.ok, block) => (.ok, some block, [])
          | (.err _, block) =>
            -- block is full
            let full := blockFinish cfg block
            match blockAlloc alloc with
            | none => (.err .enomem, none, [full])
            | some new =>
              let (err, new) := writeEntry cfg new entry
              (err, some new, [full])
  | _, _ => (.err .einval, block, [])

def entryBlockClose (lock : Ret) (block : Option Buf) : Ret × Option Buf × List Buf :=
  match lock with
  | .err e => (.err e, block, [])
  | .ok =>
    match block with
    | none => (.ok, none, [])
    | some block =>
      if 0 < blockSizeGet block then (.ok, none, [blockFinish cfg block])
      else (.ok, some block, [])

end

inductive EntryOp where
  | write (path : Option CString) (contentType : UInt16) (data : Option Buf) (lock : Ret)
      (alloc : Bool)
  | close (lock : Ret)

structure EntryOut where
  ret : Ret
  enqueued : List Buf
  deriving DecidableEq

def entryStep (cfg : Config) (block : Option Buf) : EntryOp → Option Buf × EntryOut
  | .write path contentType data lock alloc =>
    let (ret, block, enqueued) := pouchUplinkEntryWrite cfg path contentType data lock alloc block
    (block, ⟨ret, enqueued⟩)
  | .close lock =>
    let (ret, block, enqueued) := entryBlockClose cfg lock block
    (block, ⟨ret, enqueued⟩)

def EntryOp.entry : EntryOp → Option PouchEntry
  | .write (some path) contentType (some data) _ _ => some ⟨path, contentType, data⟩
  | _ => none

/- The sum that write_entry compares with the space is a size_t. -/
def PouchEntry.size (entry : PouchEntry) : Nat :=
  entryHeaderOverhead + strlen entry.path + entry.data.length

def EntryOp.Addressable (cfg : Config) (op : EntryOp) : Prop :=
  ∀ entry, op.entry = some entry → entry.size < 2^cfg.sizeBits

def encodings (entries : List PouchEntry) : Buf := entries.flatMap PouchEntry.encoding

theorem length_encoding (entry : PouchEntry) : entry.encoding.length = entry.size := by
  simp [PouchEntry.encoding, PouchEntry.size, entryHeaderOverhead, strlen]
  omega

@[simp] theorem encodings_nil : encodings [] = [] := rfl
@[simp] theorem encodings_append (es fs : List PouchEntry) :
    encodings (es++fs) = encodings es++encodings fs := List.flatMap_append ..
@[simp] theorem encodings_singleton (entry : PouchEntry) : encodings [entry] = entry.encoding := by
  simp [encodings]

def FitsBehind (cfg : Config) (filled size : Nat) : Prop :=
  size % 2^cfg.sizeBits ≤ cfg.sizeSub cfg.maxBlockPayloadSize filled

instance (cfg : Config) (filled size : Nat) : Decidable (FitsBehind cfg filled size) :=
  inferInstanceAs (Decidable (_ ≤ _))

def EntryShape (block : Option Buf) : Prop := ∀ b, block = some b → ∃ p, b = openBlock 0xC0 p

theorem EntryShape.some (p : Buf) : EntryShape (some (openBlock 0xC0 p)) := by
  intro b hb
  cases hb
  exact ⟨p, rfl⟩

theorem EntryShape.none : EntryShape none := fun _ hb => by cases hb

section
variable {cfg : Config}

theorem blockSpaceGet_filled (payload : Buf) :
    blockSpaceGet cfg (openBlock 0xC0 payload) =
      cfg.sizeSub cfg.maxBlockPayloadSize payload.length := by
  simp only [blockSpaceGet, blockSizeGet, bufSizeGet, length_openBlock,
    Config.maxPlaintextBlockSize, Config.sizeSub]
  congr 1
  omega

/-- An entry goes into an open block whole or not at all. -/
theorem writeEntry_eq (cfg : Config) (payload : Buf) (entry : PouchEntry) :
    writeEntry cfg (openBlock 0xC0 payload) entry =
      if FitsBehind cfg payload.length entry.size then
        (.ok, openBlock 0xC0 (payload++entry.encoding))
      else (.err .enomem, openBlock 0xC0 payload) := by
  have hsize : entryHeaderOverhead + strlen entry.path + entry.data.length = entry.size := rfl
  simp only [writeEntry, blockSpaceGet_filled, hsize]
  by_cases hfit : FitsBehind cfg payload.length entry.size
  · rw [if_neg (Nat.not_lt.mpr hfit), if_pos hfit]
    simp [bufWrite, PouchEntry.encoding]
  · rw [if_pos (Nat.lt_of_not_le hfit), if_neg hfit]

theorem writeEntry_shape (cfg : Config) (p : Buf) (entry : PouchEntry) :
    ∃ q, (writeEntry cfg (openBlock 0xC0 p) entry).2 = openBlock 0xC0 q := by
  rw [writeEntry_eq]
  split
  · exact ⟨_, rfl⟩
  · exact ⟨p, rfl⟩

theorem fitsBehind_iff {filled size : Nat} (hfilled : filled ≤ cfg.maxBlockPayloadSize)
    (hsize : size < 2^cfg.sizeBits) :
    FitsBehind cfg filled size ↔ filled + size ≤ cfg.maxBlockPayloadSize := by
  have hlt := cfg.maxBlockPayloadSize_lt
  have hbits := cfg.two_pow_le_sizeBits
  rw [FitsBehind, cfg.sizeSub_eq hfilled (by omega), Nat.mod_eq_of_lt hsize]
  omega

theorem writeEntry_openBlock {payload : Buf} (hp : payload.length ≤ cfg.maxBlockPayloadSize)
    {entry : PouchEntry} (he : entry.size < 2^cfg.sizeBits) :
    writeEntry cfg (openBlock 0xC0 payload) entry =
      if payload.length + entry.size ≤ cfg.maxBlockPayloadSize then
        (.ok, openBlock 0xC0 (payload++entry.encoding))
      else (.err .enomem, openBlock 0xC0 payload) := by
  simp only [writeEntry_eq, fitsBehind_iff hp he]

theorem writeEntry_new {entry : PouchEntry} (he : entry.size < 2^cfg.sizeBits) :
    writeEntry cfg (openBlock 0xC0 []) entry =
      if entry.size ≤ cfg.maxBlockPayloadSize then (.ok, openBlock 0xC0 entry.encoding)
      else (.err .enomem, openBlock 0xC0 []) := by
  have hp : ([] : Buf).length ≤ cfg.maxBlockPayloadSize := Nat.zero_le _
  have h := writeEntry_openBlock hp he
  simpa using h

/-- An entry that does not fit leaves the block as it is. -/
theorem writeEntry_err {block written : Buf} {entry : PouchEntry} {e : Errno}
    (h : writeEntry cfg block entry = (.err e, written)) : e = .enomem ∧ written = block := by
  simp only [writeEntry] at h
  split at h
  · cases h
    exact ⟨rfl, rfl⟩
  · cases h

/- Everything pouch_uplink_entry_write can do with an entry, given the open block: nothing, or
   the entry goes into a new block, into the open one, nowhere for want of a block once the
   open one has been given away, or into the block after it. -/
inductive EntryWritten (cfg : Config) (entry : PouchEntry) (lock : Ret) (alloc : Bool)
    (block : Option Buf) : Ret × Option Buf × List Buf → Prop
  | refused (e : Errno)
      (why : entry.data = [] ∨ lock ≠ .ok ∨ block = none ∧ alloc = false) :
      EntryWritten cfg entry lock alloc block (.err e, block, [])
  | fresh (before : block = none) :
      EntryWritten cfg entry lock alloc block ((writeEntry cfg (openBlock 0xC0 []) entry).1,
        some (writeEntry cfg (openBlock 0xC0 []) entry).2, [])
  | added (old written : Buf) (before : block = some old)
      (fits : writeEntry cfg old entry = (.ok, written)) :
      EntryWritten cfg entry lock alloc block (.ok, some written, [])
  | dropped (old : Buf) (before : block = some old)
      (full : writeEntry cfg old entry = (.err .enomem, old)) (failed : alloc = false) :
      EntryWritten cfg entry lock alloc block (.err .enomem, none, [blockFinish cfg old])
  | replaced (old : Buf) (before : block = some old)
      (full : writeEntry cfg old entry = (.err .enomem, old)) :
      EntryWritten cfg entry lock alloc block ((writeEntry cfg (openBlock 0xC0 []) entry).1,
        some (writeEntry cfg (openBlock 0xC0 []) entry).2, [blockFinish cfg old])

theorem pouchUplinkEntryWrite_cases (cfg : Config) (entry : PouchEntry) (lock : Ret) (alloc : Bool)
    (block : Option Buf) :
    EntryWritten cfg entry lock alloc block
      (pouchUplinkEntryWrite cfg (some entry.path) entry.contentType (some entry.data) lock alloc
        block) := by
  by_cases hd : entry.data.length = 0
  · simp only [pouchUplinkEntryWrite, hd, if_true]
    exact .refused .einval (Or.inl (List.eq_nil_of_length_eq_zero hd))
  cases lock with
  | err e =>
    simp only [pouchUplinkEntryWrite, hd, if_false]
    exact .refused e (Or.inr (Or.inl fun h => (by cases h)))
  | ok =>
    cases block with
    | none =>
      cases alloc with
      | false =>
        simp only [pouchUplinkEntryWrite, hd, if_false, blockAlloc_eq, Bool.false_eq_true]
        exact .refused .enomem (Or.inr (Or.inr ⟨rfl, rfl⟩))
      | true =>
        simp only [pouchUplinkEntryWrite, hd, if_false, blockAlloc_eq, if_true]
        exact .fresh rfl
    | some old =>
      cases hw : writeEntry cfg old entry with
      | mk ret written =>
        cases ret with
        | ok =>
          simp only [pouchUplinkEntryWrite, hd, if_false, hw]
          exact .added old written rfl hw
        | err e =>
          obtain ⟨rfl, rfl⟩ := writeEntry_err hw
          cases alloc with
          | false =>
            simp only [pouchUplinkEntryWrite, hd, if_false, hw, blockAlloc_eq, Bool.false_eq_true]
            exact .dropped _ rfl hw rfl
          | true =>
            simp only [pouchUplinkEntryWrite, hd, if_false, hw, blockAlloc_eq, if_true]
            exact .replaced _ rfl hw

/-- With NULL pointers nothing is done, as with an entry that is refused. -/
theorem pouchUplinkEntryWrite_written (cfg : Config) (path : Option CString)
    (contentType : UInt16) (data : Option Buf) (lock : Ret) (alloc : Bool) (block : Option Buf) :
    ∃ entry, EntryWritten cfg entry lock alloc block
      (pouchUplinkEntryWrite cfg path contentType data lock alloc block) := by
  match path, data with
  | none, _ => exact ⟨⟨pathA, contentType, []⟩, .refused .einval (Or.inl rfl)⟩
  | some _, none => exact ⟨⟨pathA, contentType, []⟩, .refused .einval (Or.inl rfl)⟩
  | some path, some data =>
    exact ⟨⟨path, contentType, data⟩,
      pouchUplinkEntryWrite_cases cfg ⟨path, contentType, data⟩ lock alloc block⟩

theorem blockHdr_finish_streamId (cfg : Config) (b id flags : UInt8) (p : Buf) :
    (blockHdr (finish cfg (openBlock b p) id flags)).streamId = (b ||| flags) &&& blockIdMask := rfl

section
variable {block : Option Buf}

theorem blockFinish_streamId (p : Buf) :
    (blockHdr (blockFinish cfg (openBlock 0xC0 p))).streamId = 0 := by
  rw [blockFinish, blockHdr_finish_streamId]
  rfl

theorem pouchUplinkEntryWrite_shape (h : EntryShape block) (path : Option CString)
    (contentType : UInt16) (data : Option Buf) (lock : Ret) (alloc : Bool) :
    EntryShape (pouchUplinkEntryWrite cfg path contentType data lock alloc block).2.1 ∧
    ∀ b ∈ (pouchUplinkEntryWrite cfg path contentType data lock alloc block).2.2,
      (blockHdr b).streamId = 0 := by
  obtain ⟨entry, hw⟩ := pouchUplinkEntryWrite_written cfg path contentType data lock alloc block
  generalize pouchUplinkEntryWrite cfg path contentType data lock alloc block = r at hw ⊢
  obtain ⟨new, hnew⟩ := writeEntry_shape cfg [] entry
  cases hw with
  | refused e why => exact ⟨h, by simp⟩
  | fresh before =>
    rw [hnew]
    exact ⟨.some new, by simp⟩
  | added b written before fits =>
    obtain ⟨p, rfl⟩ := h b before
    obtain ⟨q, hq⟩ := writeEntry_shape cfg p entry
    obtain rfl : written = openBlock 0xC0 q := by simpa [fits] using hq
    exact ⟨.some q, by simp⟩
  | dropped b before full failed =>
    obtain ⟨p, rfl⟩ := h b before
    exact ⟨.none, by simp [blockFinish_streamId]⟩
  | replaced b before full =>
    obtain ⟨p, rfl⟩ := h b before
    rw [hnew]
    exact ⟨.some new, by simp [blockFinish_streamId]⟩

theorem entryBlockClose_shape (h : EntryShape block) (lock : Ret) :
    EntryShape (entryBlockClose cfg lock block).2.1 ∧
    ∀ b ∈ (entryBlockClose cfg lock block).2.2, (blockHdr b).streamId = 0 := by
  cases lock with
  | err e => exact ⟨h, by simp [entryBlockClose]⟩
  | ok =>
    cases block with
    | none => exact ⟨h, by simp [entryBlockClose]⟩
    | some b =>
      obtain ⟨p, rfl⟩ := h b rfl
      simpa [entryBlockClose, blockSizeGet, bufSizeGet, blockFinish_streamId] using EntryShape.none

/-- Blocks of entries carry the id 0, whatever is written into them. -/
theorem entryStep_shape (cfg : Config) (h : EntryShape block) (op : EntryOp) :
    EntryShape (entryStep cfg block op).1 ∧
    ∀ b ∈ (entryStep cfg block op).2.enqueued, (blockHdr b).streamId = 0 := by
  cases op with
  | write path contentType data lock alloc =>
    exact pouchUplinkEntryWrite_shape h path contentType data lock alloc
  | close lock => exact entryBlockClose_shape h lock

end

structure OpenEntries (cfg : Config) (block : Option Buf) (entries : List PouchEntry) : Prop where
  fits : (encodings entries).length ≤ cfg.maxBlockPayloadSize
  block_eq : block = some (openBlock 0xC0 (encodings entries)) ∨ block = none ∧ entries = []

end
end Pouch
