import PouchNode.StreamIds

/-! The one-byte path length of entries and streams. What fits into a block is compared as a
size_t and the field keeps the lowest byte of it, so the layout of entry.c gives an accepted
path back only if it has at most 255 characters. -/
namespace Pouch
open Octets

def decodeEntry (b : Buf) : Buf × Nat × Buf :=
  let pathLen := ((b.drop 4).headD 0).toNat
  ((b.drop 5).take pathLen, getBe16 (b.drop 2), (b.drop (5 + pathLen)).take (getBe16 b))

def decodeStream (b : Buf) : Buf × Nat × Buf :=
  let pathLen := ((b.drop 2).headD 0).toNat
  ((b.drop 3).take pathLen, getBe16 b, b.drop (3 + pathLen))

structure EntryKept (entry : PouchEntry) (block : Buf) : Prop where
  pathLen : (block[block.length - entry.size + 4]?).map UInt8.toNat = some (strlen entry.path)
  decoded : decodeEntry (block.drop (block.length - entry.size)) =
    (entry.path.chars, entry.contentType.toNat, entry.data)

structure StreamPathKept (path : CString) (contentType : UInt16) (block : Buf) : Prop where
  pathLen : ((blockPayload block)[2]?).map UInt8.toNat = some (strlen path)
  decoded : ∀ data, decodeStream (blockPayload block++data) =
    (path.chars, contentType.toNat, data)

theorem toNat_ofNat_eq_iff (n : Nat) : (UInt8.ofNat n).toNat = n ↔ n ≤ 255 := by
  rw [UInt8.toNat_ofNat']
  omega

theorem getBe16_contentType (contentType : UInt16) (t : Buf) :
    getBe16 (putBe16 contentType.toNat++t) = contentType.toNat := by
  have hlt := contentType.toNat_lt
  rw [getBe16_putBe16_append]
  omega

section
variable (entry : PouchEntry)

theorem encoding_eq : entry.encoding =
    putBe16 entry.data.length++(putBe16 entry.contentType.toNat++
      (UInt8.ofNat (strlen entry.path) :: (entry.path.chars++entry.data))) := by
  simp [PouchEntry.encoding]

theorem decodeEntry_encoding : decodeEntry entry.encoding =
    ((entry.path.chars++entry.data).take (strlen entry.path % 256), entry.contentType.toNat,
      ((entry.path.chars++entry.data).drop (strlen entry.path % 256)).take
        (entry.data.length % 65536)) := by
  have hsize : getBe16 entry.encoding = entry.data.length % 65536 := by
    rw [encoding_eq, getBe16_putBe16_append]
  have htype : getBe16 (entry.encoding.drop 2) = entry.contentType.toNat := by
    rw [encoding_eq]
    exact getBe16_contentType _ _
  have hpath : ((entry.encoding.drop 4).headD 0).toNat = strlen entry.path % 256 := by
    rw [encoding_eq]
    exact UInt8.toNat_ofNat'
  have hrest : entry.encoding.drop 5 = entry.path.chars++entry.data := by
    rw [encoding_eq]
    rfl
  simp only [decodeEntry, hsize, htype, hpath, ← List.drop_drop, hrest]

/-- An entry is read back exactly if both its length fields can hold the lengths. -/
theorem entryKept_iff (before : Buf) :
    EntryKept entry (before++entry.encoding) ↔
      strlen entry.path ≤ 255 ∧ entry.data.length ≤ 65535 := by
  have hstart : (before++entry.encoding).length - entry.size = before.length := by
    rw [List.length_append, length_encoding]
    omega
  have hbyte : (before++entry.encoding)[before.length + 4]? =
      some (UInt8.ofNat (strlen entry.path)) := by
    rw [List.getElem?_append_right (by omega), Nat.add_sub_cancel_left, encoding_eq]
    rfl
  constructor
  · intro h
    have hpath := h.pathLen
    rw [hstart, hbyte, Option.map_some, Option.some.injEq, toNat_ofNat_eq_iff] at hpath
    refine ⟨hpath, ?_⟩
    have hdecoded := h.decoded
    rw [hstart, List.drop_left, decodeEntry_encoding, Nat.mod_eq_of_lt (by omega)] at hdecoded
    have hdata := congrArg (fun d => d.2.2.length) hdecoded
    simp only [strlen, List.drop_left, List.length_take] at hdata
    omega
  · rintro ⟨hpath, hdata⟩
    constructor
    · rw [hstart, hbyte, Option.map_some, (toNat_ofNat_eq_iff _).mpr hpath]
    · rw [hstart, List.drop_left, decodeEntry_encoding, Nat.mod_eq_of_lt (by omega),
        Nat.mod_eq_of_lt (by omega)]
      simp [strlen]

theorem pouchUplinkEntryWrite_accepted (cfg : Config) (lock : Ret) (alloc : Bool)
    (block : Option Buf)
    (hok : (pouchUplinkEntryWrite cfg (some entry.path) entry.contentType (some entry.data) lock
      alloc block).1 = .ok) :
    ∃ before, (pouchUplinkEntryWrite cfg (some entry.path) entry.contentType (some entry.data) lock
      alloc block).2.1 = some (before++entry.encoding) := by
  have hwrite : ∀ b, (writeEntry cfg b entry).1 = .ok →
      (writeEntry cfg b entry).2 = b++entry.encoding := by
    intro b hb
    simp only [writeEntry] at hb ⊢
    split at hb
    · cases hb
    · next hfits =>
      rw [if_neg hfits]
      simp [bufWrite, PouchEntry.encoding]
  have hw := pouchUplinkEntryWrite_cases cfg entry lock alloc block
  generalize pouchUplinkEntryWrite cfg (some entry.path) entry.contentType (some entry.data) lock
    alloc block = r at hw hok ⊢
  cases hw with
  | refused e why => cases hok
  | fresh before => exact ⟨_, congrArg some (hwrite _ hok)⟩
  | added b written before fits =>
    have hb := hwrite b (by rw [fits])
    rw [fits] at hb
    exact ⟨b, congrArg some hb⟩
  | dropped b before full failed => cases hok
  | replaced b before full => exact ⟨_, congrArg some (hwrite _ hok)⟩

end

section
variable (path : CString) (contentType : UInt16)

theorem decodeStream_header (data : Buf) :
    decodeStream (streamHeader contentType path++data) =
      ((path.chars++data).take (strlen path % 256), contentType.toNat,
        (path.chars++data).drop (strlen path % 256)) := by
  have heq : streamHeader contentType path++data =
      putBe16 contentType.toNat++(UInt8.ofNat (strlen path) :: (path.chars++data)) := by
    simp [streamHeader]
  have hpath : (((streamHeader contentType path++data).drop 2).headD 0).toNat =
      strlen path % 256 := by
    rw [heq]
    exact UInt8.toNat_ofNat'
  have hrest : (streamHeader contentType path++data).drop 3 = path.chars++data := by
    rw [heq]
    rfl
  simp only [decodeStream, hpath, ← List.drop_drop, hrest]
  rw [heq, getBe16_contentType]

/-- The path of a stream is read back exactly if the length field can hold its length. -/
theorem streamPathKept_iff (id : UInt8) :
    StreamPathKept path contentType (openBlock id (streamHeader contentType path)) ↔
      strlen path ≤ 255 := by
  have hbyte : (streamHeader contentType path)[2]? = some (UInt8.ofNat (strlen path)) := rfl
  constructor
  · intro h
    have hpath := h.pathLen
    rwa [blockPayload_openBlock, hbyte, Option.map_some, Option.some.injEq,
      toNat_ofNat_eq_iff] at hpath
  · intro hpath
    constructor
    · rw [blockPayload_openBlock, hbyte, Option.map_some, (toNat_ofNat_eq_iff _).mpr hpath]
    · intro data
      rw [blockPayload_openBlock, decodeStream_header, Nat.mod_eq_of_lt (by omega)]
      simp [strlen]

theorem pouchUplinkStreamOpen_opened {sessionId : UInt32} {malloc alloc : Bool} {s t : Streams}
    {h : Nat} (hopen : pouchUplinkStreamOpen sessionId path contentType malloc alloc s = (some h, t)) :
    ∃ stream id, t.live.lookup h = some stream ∧
      stream.buf = openBlock id (streamHeader contentType path) := by
  simp only [pouchUplinkStreamOpen] at hopen
  split at hopen
  · cases hopen
  split at hopen
  · cases hopen
  cases alloc with
  | false => simp [blockAllocStream] at hopen
  | true =>
    simp only [blockAllocStream, if_true, Prod.mk.injEq, Option.some.injEq] at hopen
    obtain ⟨rfl, rfl⟩ := hopen
    refine ⟨_, (newStreamId s.streamId).1 ||| firstDataMask, AList.lookup_insert _, ?_⟩
    simp [writeStreamHeader, writeBlockHeader, bufWrite, streamHeader, openBlock, putBe16]

end

/-- Whatever is accepted can be read back by its layout exactly if the path has at most 255
characters, and in an entry the data at most 65535 bytes. -/
theorem path_lengths_kept_iff (cfg : Config) :
    (∀ (entry : PouchEntry) (lock : Ret) (alloc : Bool) (block : Option Buf),
      (pouchUplinkEntryWrite cfg (some entry.path) entry.contentType (some entry.data) lock alloc
        block).1 = .ok →
      ((∃ b, (pouchUplinkEntryWrite cfg (some entry.path) entry.contentType (some entry.data) lock
          alloc block).2.1 = some b ∧ EntryKept entry b) ↔
        strlen entry.path ≤ 255 ∧ entry.data.length ≤ 65535)) ∧
    ∀ (sessionId : UInt32) (path : CString) (contentType : UInt16) (malloc alloc : Bool)
      (s t : Streams) (h : Nat),
      pouchUplinkStreamOpen sessionId path contentType malloc alloc s = (some h, t) →
      ((∃ stream, t.live.lookup h = some stream ∧ StreamPathKept path contentType stream.buf) ↔
        strlen path ≤ 255) := by
  constructor
  · intro entry lock alloc block hok
    obtain ⟨before, hbefore⟩ := pouchUplinkEntryWrite_accepted entry cfg lock alloc block hok
    rw [hbefore, ← entryKept_iff entry before]
    simp
  · intro sessionId path contentType malloc alloc s t h hopen
    obtain ⟨stream, id, hlookup, hbuf⟩ := pouchUplinkStreamOpen_opened path contentType hopen
    rw [hlookup, ← streamPathKept_iff path contentType id, ← hbuf]
    simp

def smallEntry : PouchEntry := ⟨pathA, 42, [1]⟩

theorem small_entry_kept :
    (∃ b, (pouchUplinkEntryWrite (.ofLog 9 .none) (some pathA) 42 (some [1]) .ok true none).2.1 =
      some b ∧ EntryKept smallEntry b) ∧
    ∃ stream, (pouchUplinkStreamOpen 0 pathA 42 true true .boot).2.live.lookup 0 = some stream ∧
      StreamPathKept pathA 42 stream.buf := by
  obtain ⟨hentry, hstream⟩ := path_lengths_kept_iff (.ofLog 9 .none)
  exact ⟨(hentry smallEntry .ok true none (by decide)).mpr (by decide),
    (hstream 0 pathA 42 true true .boot _ 0 rfl).mpr (by decide)⟩

def path256 : CString :=
  ⟨List.replicate 256 0x61, fun h => absurd (List.eq_of_mem_replicate h) (by decide)⟩

theorem path256_too_long : ¬ strlen path256 ≤ 255 := by
  rw [show strlen path256 = 256 from List.length_replicate]
  decide

/-- The length of the path is stored as 0. -/
theorem path256_not_kept :
    (pouchUplinkEntryWrite (.ofLog 9 .none) (some path256) 42 (some [1]) .ok true none).1 = .ok ∧
    (¬ ∃ b, (pouchUplinkEntryWrite (.ofLog 9 .none) (some path256) 42 (some [1]) .ok true
      none).2.1 = some b ∧ EntryKept ⟨path256, 42, [1]⟩ b) ∧
    (pouchUplinkStreamOpen 0 path256 42 true true .boot).1 = some 0 ∧
    ¬ ∃ stream, (pouchUplinkStreamOpen 0 path256 42 true true .boot).2.live.lookup 0 =
      some stream ∧ StreamPathKept path256 42 stream.buf := by
  have haccepted : (pouchUplinkEntryWrite (.ofLog 9 .none) (some path256) 42 (some [1]) .ok true
      none).1 = .ok := by decide +kernel
  have hlong := path256_too_long
  generalize path256 = path at *
  refine ⟨haccepted, ?_, rfl, ?_⟩
  · rintro ⟨b, hb, hkept⟩
    obtain ⟨before, hbefore⟩ :=
      pouchUplinkEntryWrite_accepted ⟨path, 42, [1]⟩ (.ofLog 9 .none) .ok true none haccepted
    rw [hbefore, Option.some.injEq] at hb
    rw [← hb, entryKept_iff] at hkept
    exact hlong hkept.1
  · rintro ⟨stream, hlookup, hkept⟩
    have hopen : pouchUplinkStreamOpen 0 path 42 true true .boot =
        (some 0, (pouchUplinkStreamOpen 0 path 42 true true .boot).2) := rfl
    obtain ⟨opened, id, hopened, hbuf⟩ := pouchUplinkStreamOpen_opened path 42 hopen
    rw [hopened, Option.some.injEq] at hlookup
    rw [← hlookup, hbuf, streamPathKept_iff] at hkept
    exact hlong hkept

end Pouch
