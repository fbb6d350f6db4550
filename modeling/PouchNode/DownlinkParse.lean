import PouchNode.DownlinkEntry
import PouchNode.DownlinkReassembly

/-! Which blocks the consumer can parse. Its fixed-width reads are not checked at all, and
the results of the checked ones are not looked at, so it stays inside its buffer exactly on
blocks that are made of whole entries, or whose stream header is whole. -/
namespace Pouch
open Octets

structure RawEntry where
  contentType : UInt16
  path : Buf
  data : Buf
  path_lt : path.length < 256
  data_lt : data.length < 65536

def RawEntry.encoding (e : RawEntry) : Buf :=
  putBe16 e.data.length++putBe16 e.contentType.toNat++[UInt8.ofNat e.path.length]++e.path++e.data

structure RawStream where
  contentType : UInt16
  path : Buf
  path_lt : path.length < 256

def RawStream.encoding (h : RawStream) : Buf :=
  putBe16 h.contentType.toNat++[UInt8.ofNat h.path.length]++h.path

def WholeEntries (b : Buf) : Prop := ∃ es : List RawEntry, b = es.flatMap RawEntry.encoding
def WholeHeader (b : Buf) : Prop := ∃ (h : RawStream) (data : Buf), b = h.encoding++data

/- A block that can be parsed: what follows the id byte is what the byte says. -/
def Parsable (buf : Buf) : Prop :=
  3 ≤ buf.length ∧
    if (blockHdr buf).isStream then (blockHdr buf).isFirst = true → WholeHeader (blockPayload buf)
    else WholeEntries (blockPayload buf)

/- The bytes behind a pointer reach for an access; there are none behind NULL. -/
def Reaches (pointer : Option Buf) (bytes : Nat) : Prop := bytes ≤ (pointer.getD []).length

def PushEvent.Safe (count : Nat) : PushEvent → Prop
  | .read offset bytes => offset + bytes ≤ count
  | .advance offset => offset ≤ count
  | .memcpy src bytes => Reaches src bytes
  | .start _ _ _ => True
  | .data _ pointer bytes _ => Reaches pointer bytes

def StaysInside (cfg : Config) (buf : Buf) : Prop :=
  ∃ passes, (blockPush cfg passes buf).1 = true ∧
    ∀ event ∈ (blockPush cfg passes buf).2, event.Safe buf.length

def RawEntry.events (e : RawEntry) (offset : Nat) (t : Buf) : List PushEvent :=
  [.read offset 2, .read (offset + 2) 2, .read (offset + 4) 1,
    .advance (offset + 5 + e.path.length),
    .advance (offset + 5 + e.path.length + e.data.length),
    .memcpy (some (e.path++e.data++t)) e.path.length,
    .start 0 (cString e.path) e.contentType,
    .data 0 (some (e.data++t)) e.data.length true]

theorem RawEntry.length_encoding (e : RawEntry) :
    e.encoding.length = 5 + e.path.length + e.data.length := by
  simp [RawEntry.encoding]
  omega

def RawStream.events (h : RawStream) (streamId : UInt8) (offset : Nat) (data : Buf) :
    List PushEvent :=
  [.read offset 2, .read (offset + 2) 1, .advance (offset + 3 + h.path.length),
    .memcpy (some (h.path++data)) h.path.length,
    .start streamId.toUInt32 (cString h.path) h.contentType]

theorem RawStream.length_encoding (h : RawStream) : h.encoding.length = 3 + h.path.length := by
  simp [RawStream.encoding]
  omega

section
variable {cfg : Config} {buf t : Buf} {offset n : Nat} {events : List PushEvent}

theorem bind_apply {α β : Type} (x : PushM α) (f : α → PushM β) (c : Consumer) :
    (x >>= f) c = f (x c).1 (x c).2 := rfl

theorem emit_apply (event : PushEvent) (c : Consumer) :
    emit event c = ((), ⟨c.view, c.events++[event]⟩) := rfl

theorem readBe16_apply : readBe16 ⟨⟨some buf, offset⟩, events⟩ =
    (getBe16 (buf.drop offset), ⟨⟨some buf, offset + 2⟩, events++[.read offset 2]⟩) := rfl

theorem readByte_apply : readByte ⟨⟨some buf, offset⟩, events⟩ =
    ((buf.drop offset).headD 0, ⟨⟨some buf, offset + 1⟩, events++[.read offset 1]⟩) := rfl

theorem available_apply (ho : offset ≤ buf.length) (hb : buf.length < 2^cfg.sizeBits) :
    available cfg ⟨⟨some buf, offset⟩, events⟩ =
      (buf.length - offset, ⟨⟨some buf, offset⟩, events⟩) := by
  rw [← available_some cfg ho hb]
  rfl

theorem readBytes_apply (ho : offset ≤ buf.length) (hb : buf.length < 2^cfg.sizeBits) :
    readBytes cfg n ⟨⟨some buf, offset⟩, events⟩ =
      if offset + n ≤ buf.length then
        (some (buf.drop offset), ⟨⟨some buf, offset + n⟩, events++[.advance (offset + n)]⟩)
      else (none, ⟨⟨some buf, offset⟩, events++[.advance offset]⟩) := by
  have hread : pouchBufviewRead cfg ⟨some buf, offset⟩ n =
      if offset + n ≤ buf.length then (some (buf.drop offset), ⟨some buf, offset + n⟩)
      else (none, ⟨some buf, offset⟩) := by
    simp only [pouchBufviewRead, available_some cfg ho hb]
    by_cases hn : offset + n ≤ buf.length
    · rw [if_neg (by omega), if_pos hn]
      rfl
    · rw [if_pos (by omega), if_neg hn]
  change ((pouchBufviewRead cfg ⟨some buf, offset⟩ n).1,
    Consumer.mk (pouchBufviewRead cfg ⟨some buf, offset⟩ n).2
      (events++[.advance (pouchBufviewRead cfg ⟨some buf, offset⟩ n).2.offset])) = _
  rw [hread]
  split <;> rfl

def Keeps {α : Type} (m : PushM α) : Prop := ∀ c, c.events ⊆ (m c).2.events

theorem Keeps.bind {α β : Type} {x : PushM α} {f : α → PushM β} (hx : Keeps x)
    (hf : ∀ a, Keeps (f a)) : Keeps (x >>= f) := fun c => List.Subset.trans (hx c) (hf _ _)

theorem keeps_emit (event : PushEvent) : Keeps (emit event) := fun _ => List.subset_append_left _ _
theorem keeps_readBe16 : Keeps readBe16 := fun _ => List.subset_append_left _ _
theorem keeps_readByte : Keeps readByte := fun _ => List.subset_append_left _ _
theorem keeps_readBytes (cfg : Config) (n : Nat) : Keeps (readBytes cfg n) :=
  fun _ => List.subset_append_left _ _

theorem keeps_entryPush (cfg : Config) : Keeps (entryPush cfg) :=
  keeps_readBe16.bind fun _ => keeps_readBe16.bind fun _ => keeps_readByte.bind fun _ =>
    (keeps_readBytes cfg _).bind fun _ => (keeps_readBytes cfg _).bind fun _ =>
      (keeps_emit _).bind fun _ => (keeps_emit _).bind fun _ => keeps_emit _

theorem keeps_entriesPush (cfg : Config) (passes : Nat) :
    Keeps (pouchDownlinkEntriesPush cfg passes) := by
  induction passes with
  | zero => exact fun _ => List.Subset.refl _
  | succ passes ih =>
    intro c
    rw [pouchDownlinkEntriesPush, bind_apply]
    split
    · exact List.Subset.refl _
    · exact ((keeps_entryPush cfg).bind fun _ => ih) c

theorem entryPush_whole {e : RawEntry} (hb : buf.length < 2^cfg.sizeBits)
    (hrest : buf.drop offset = e.encoding++t) :
    entryPush cfg ⟨⟨some buf, offset⟩, events⟩ =
      ((), ⟨⟨some buf, offset + e.encoding.length⟩, events++e.events offset t⟩) := by
  have hlen := congrArg List.length hrest
  simp only [List.length_drop, List.length_append, e.length_encoding] at hlen
  have hat : ∀ k, buf.drop (offset + k) = (e.encoding++t).drop k := by
    intro k
    rw [← hrest, List.drop_drop]
  have hdata : getBe16 (buf.drop offset) = e.data.length := by
    rw [hrest]
    simp [RawEntry.encoding, Nat.mod_eq_of_lt e.data_lt]
  have htype : getBe16 (buf.drop (offset + 2)) = e.contentType.toNat := by
    have hsmall := e.contentType.toNat_lt
    rw [hat 2]
    simp [RawEntry.encoding, putBe16, getBe16]
    omega
  have hpath : ((buf.drop (offset + 2 + 2)).headD 0).toNat = e.path.length := by
    rw [Nat.add_assoc, hat 4]
    simp [RawEntry.encoding, putBe16, Nat.mod_eq_of_lt e.path_lt]
  have hbody : buf.drop (offset + 2 + 2 + 1) = e.path++e.data++t := by
    rw [show offset + 2 + 2 + 1 = offset + 5 by omega, hat 5]
    simp [RawEntry.encoding, putBe16]
  have htail : buf.drop (offset + 2 + 2 + 1 + e.path.length) = e.data++t := by
    rw [← List.drop_drop, hbody, List.append_assoc, List.drop_left]
  simp only [entryPush, bind_apply, readBe16_apply, readByte_apply, emit_apply, hdata, htype, hpath]
  rw [readBytes_apply (by omega) hb, if_pos (by omega)]
  dsimp only
  rw [readBytes_apply (by omega) hb, if_pos (by omega)]
  rw [hbody, htail]
  simp [pathNullTerm, RawEntry.events, e.length_encoding, Nat.add_assoc]

theorem exists_rawEntry {b : Buf}
    (hfit : 5 + ((b.drop 4).headD 0).toNat + getBe16 b ≤ b.length) :
    ∃ (e : RawEntry) (t : Buf), b = e.encoding++t := by
  match b with
  | [] | [_] | [_, _] | [_, _, _] | [_, _, _, _] =>
    simp only [List.length_cons, List.length_nil] at hfit
    omega
  | d1 :: d0 :: c1 :: c0 :: p :: body =>
    have hpath := p.toNat_lt
    have hdata := getBe16_lt [d1, d0]
    have htype := getBe16_lt [c1, c0]
    have hroom : p.toNat + getBe16 [d1, d0] ≤ body.length := by
      simp [getBe16] at hfit ⊢
      omega
    have hp : (body.take p.toNat).length = p.toNat := by
      rw [List.length_take]
      omega
    have hd : ((body.drop p.toNat).take (getBe16 [d1, d0])).length = getBe16 [d1, d0] := by
      rw [List.length_take, List.length_drop]
      omega
    refine ⟨⟨UInt16.ofNat (getBe16 [c1, c0]), body.take p.toNat,
      (body.drop p.toNat).take (getBe16 [d1, d0]), by omega, by omega⟩,
      (body.drop p.toNat).drop (getBe16 [d1, d0]), ?_⟩
    have hct : (UInt16.ofNat (getBe16 [c1, c0])).toNat = getBe16 [c1, c0] := by
      rw [UInt16.toNat_ofNat']
      exact Nat.mod_eq_of_lt htype
    simp only [RawEntry.encoding, hp, hd, hct, putBe16_getBe16, UInt8.ofNat_toNat]
    simp

/-- An entry that does not fit into the rest of the buffer makes the pass leave it. -/
theorem entryPush_unsafe (events : List PushEvent) (hb : buf.length < 2^cfg.sizeBits)
    (hno : ¬ ∃ (e : RawEntry) (t : Buf), buf.drop offset = e.encoding++t) :
    ∃ event ∈ (entryPush cfg ⟨⟨some buf, offset⟩, events⟩).2.events, ¬ event.Safe buf.length := by
  by_cases hfive : offset + 2 + 2 + 1 ≤ buf.length
  · simp only [entryPush, bind_apply, readBe16_apply, readByte_apply, emit_apply]
    rw [readBytes_apply hfive hb]
    by_cases hpath : offset + 2 + 2 + 1 + ((buf.drop (offset + 2 + 2)).headD 0).toNat ≤ buf.length
    · have hdata : ¬ (offset + 2 + 2 + 1 + ((buf.drop (offset + 2 + 2)).headD 0).toNat +
          getBe16 (buf.drop offset) ≤ buf.length) := by
        intro hall
        rw [show offset + 2 + 2 = offset + 4 from rfl] at hall
        apply hno
        apply exists_rawEntry
        rw [List.drop_drop, List.length_drop]
        omega
      rw [if_pos hpath]
      dsimp only
      rw [readBytes_apply hpath hb, if_neg hdata]
      refine ⟨.data 0 none (getBe16 (buf.drop offset)) true, by simp, ?_⟩
      simp only [PushEvent.Safe, Reaches, Option.getD_none, List.length_nil]
      omega
    · rw [if_neg hpath]
      refine ⟨.memcpy none ((buf.drop (offset + 2 + 2)).headD 0).toNat, by simp, ?_⟩
      simp only [PushEvent.Safe, Reaches, Option.getD_none, List.length_nil]
      omega
  · refine ⟨.read (offset + 2 + 2) 1, ?_, ?_⟩
    · -- the third read has been made, whatever follows
      simp only [entryPush, bind_apply (readBe16), bind_apply (readByte), readBe16_apply,
        readByte_apply]
      refine ((keeps_readBytes cfg _).bind fun _ => (keeps_readBytes cfg _).bind fun _ =>
        (keeps_emit _).bind fun _ => (keeps_emit _).bind fun _ => keeps_emit _) _ ?_
      simp
    · simp only [PushEvent.Safe]
      omega

theorem entriesPush_succ (hb : buf.length < 2^cfg.sizeBits) (passes : Nat)
    (ho : offset ≤ buf.length) :
    pouchDownlinkEntriesPush cfg (passes + 1) ⟨⟨some buf, offset⟩, events⟩ =
      if offset = buf.length then (true, ⟨⟨some buf, offset⟩, events⟩)
      else pouchDownlinkEntriesPush cfg passes (entryPush cfg ⟨⟨some buf, offset⟩, events⟩).2 := by
  rw [pouchDownlinkEntriesPush, bind_apply, available_apply ho hb]
  by_cases hend : offset = buf.length
  · rw [if_pos (by omega), if_pos hend]
    rfl
  · rw [if_neg (by omega), if_neg hend]
    rfl

def entriesEvents : Nat → List RawEntry → List PushEvent
  | _, [] => []
  | offset, e :: es =>
    e.events offset (es.flatMap RawEntry.encoding)++entriesEvents (offset + e.encoding.length) es

theorem entriesPush_whole (events : List PushEvent) (hb : buf.length < 2^cfg.sizeBits)
    (es : List RawEntry) {passes : Nat} (hpasses : es.length < passes) (ho : offset ≤ buf.length)
    (hrest : buf.drop offset = es.flatMap RawEntry.encoding) :
    pouchDownlinkEntriesPush cfg passes ⟨⟨some buf, offset⟩, events⟩ =
      (true, ⟨⟨some buf, buf.length⟩, events++entriesEvents offset es⟩) := by
  obtain ⟨more, rfl⟩ : ∃ more, passes = more + 1 := ⟨passes - 1, by omega⟩
  induction es generalizing offset events more with
  | nil =>
    have hend : offset = buf.length := le_antisymm ho (by simpa using hrest)
    rw [entriesPush_succ hb _ ho, if_pos hend, hend]
    simp [entriesEvents]
  | cons e es ih =>
    rw [List.flatMap_cons] at hrest
    rw [List.length_cons] at hpasses
    have hlen := congrArg List.length hrest
    simp only [List.length_drop, List.length_append] at hlen
    have hpos := e.length_encoding
    have hnext : buf.drop (offset + e.encoding.length) = es.flatMap RawEntry.encoding := by
      rw [← List.drop_drop, hrest, List.drop_left]
    obtain ⟨rest, rfl⟩ : ∃ rest, more = rest + 1 := ⟨more - 1, by omega⟩
    rw [entriesPush_succ hb _ ho, if_neg (by omega), entryPush_whole hb hrest,
      ih _ (by omega) hnext rest (by omega)]
    simp [entriesEvents]

theorem entriesEvents_safe (es : List RawEntry) {count : Nat}
    (hfit : offset + (es.flatMap RawEntry.encoding).length ≤ count) :
    ∀ event ∈ entriesEvents offset es, event.Safe count := by
  induction es generalizing offset with
  | nil => simp [entriesEvents]
  | cons e es ih =>
    rw [List.flatMap_cons, List.length_append] at hfit
    have hlen := e.length_encoding
    have hhead : ∀ event ∈ e.events offset (es.flatMap RawEntry.encoding), event.Safe count := by
      simp [RawEntry.events, PushEvent.Safe, Reaches]
      omega
    intro event hmem
    cases List.mem_append.mp hmem with
    | inl hfirst => exact hhead event hfirst
    | inr hrest => exact ih (by omega) event hrest

/-- A loop that ends without leaving the buffer has seen whole entries. -/
theorem entriesPush_inside (hb : buf.length < 2^cfg.sizeBits) (passes : Nat)
    (ho : offset ≤ buf.length)
    (hret : (pouchDownlinkEntriesPush cfg passes ⟨⟨some buf, offset⟩, events⟩).1 = true)
    (hsafe : ∀ event ∈ (pouchDownlinkEntriesPush cfg passes ⟨⟨some buf, offset⟩, events⟩).2.events,
      event.Safe buf.length) : WholeEntries (buf.drop offset) := by
  induction passes generalizing offset events with
  | zero => cases hret
  | succ passes ih =>
    rw [entriesPush_succ hb _ ho] at hret hsafe
    by_cases hend : offset = buf.length
    · exact ⟨[], by simp [hend]⟩
    · rw [if_neg hend] at hret hsafe
      by_cases hentry : ∃ (e : RawEntry) (t : Buf), buf.drop offset = e.encoding++t
      · obtain ⟨e, t, hrest⟩ := hentry
        have hlen := congrArg List.length hrest
        simp only [List.length_drop, List.length_append] at hlen
        rw [entryPush_whole hb hrest] at hret hsafe
        obtain ⟨es, hes⟩ := ih (by omega) hret hsafe
        refine ⟨e :: es, ?_⟩
        rw [List.flatMap_cons, ← hes, ← List.drop_drop, hrest, List.drop_left]
      · obtain ⟨event, hmem, hbad⟩ := entryPush_unsafe events hb hentry
        exact absurd (hsafe event (keeps_entriesPush cfg passes _ hmem)) hbad

theorem keeps_streamStartPush (cfg : Config) (streamId : UInt8) :
    Keeps (streamStartPush cfg streamId) :=
  keeps_readBe16.bind fun _ => keeps_readByte.bind fun _ => (keeps_readBytes cfg _).bind fun _ =>
    (keeps_emit _).bind fun _ => keeps_emit _

theorem keeps_streamDataPush (cfg : Config) (streamId : UInt8) (isLast : Bool) :
    Keeps (streamDataPush cfg streamId isLast) := by
  have havail : Keeps (available cfg) := fun _ => List.Subset.refl _
  exact havail.bind fun _ => (keeps_readBytes cfg _).bind fun _ => keeps_emit _

theorem streamStartPush_whole {h : RawStream} (hb : buf.length < 2^cfg.sizeBits)
    (hrest : buf.drop offset = h.encoding++t) (streamId : UInt8) :
    streamStartPush cfg streamId ⟨⟨some buf, offset⟩, events⟩ =
      ((), ⟨⟨some buf, offset + h.encoding.length⟩, events++h.events streamId offset t⟩) := by
  have hlen := congrArg List.length hrest
  simp only [List.length_drop, List.length_append, h.length_encoding] at hlen
  have hat : ∀ k, buf.drop (offset + k) = (h.encoding++t).drop k := by
    intro k
    rw [← hrest, List.drop_drop]
  have htype : getBe16 (buf.drop offset) = h.contentType.toNat := by
    have hsmall := h.contentType.toNat_lt
    rw [hrest]
    simp [RawStream.encoding, Nat.mod_eq_of_lt hsmall]
  have hpath : ((buf.drop (offset + 2)).headD 0).toNat = h.path.length := by
    rw [hat 2]
    simp [RawStream.encoding, putBe16, Nat.mod_eq_of_lt h.path_lt]
  have hbody : buf.drop (offset + 2 + 1) = h.path++t := by
    rw [show offset + 2 + 1 = offset + 3 from rfl, hat 3]
    simp [RawStream.encoding, putBe16]
  simp only [streamStartPush, bind_apply, readBe16_apply, readByte_apply, emit_apply, htype, hpath]
  rw [readBytes_apply (by omega) hb, if_pos (by omega), hbody]
  simp [pathNullTerm, RawStream.events, h.length_encoding, Nat.add_assoc]

theorem exists_rawStream {b : Buf} (hfit : 3 + ((b.drop 2).headD 0).toNat ≤ b.length) :
    ∃ (h : RawStream) (data : Buf), b = h.encoding++data := by
  match b with
  | [] | [_] | [_, _] =>
    simp only [List.length_cons, List.length_nil] at hfit
    omega
  | c1 :: c0 :: p :: body =>
    have hpath := p.toNat_lt
    have hroom : p.toNat ≤ body.length := by
      simp at hfit
      omega
    have hp : (body.take p.toNat).length = p.toNat := by
      rw [List.length_take]
      omega
    refine ⟨⟨UInt16.ofNat (getBe16 [c1, c0]), body.take p.toNat, by omega⟩, body.drop p.toNat, ?_⟩
    have hct : (UInt16.ofNat (getBe16 [c1, c0])).toNat = getBe16 [c1, c0] := by
      rw [UInt16.toNat_ofNat']
      exact Nat.mod_eq_of_lt (getBe16_lt _)
    simp only [RawStream.encoding, hp, hct, putBe16_getBe16, UInt8.ofNat_toNat]
    simp

theorem streamStartPush_unsafe (events : List PushEvent) (hb : buf.length < 2^cfg.sizeBits)
    (hno : ¬ WholeHeader (buf.drop offset)) (streamId : UInt8) :
    ∃ event ∈ (streamStartPush cfg streamId ⟨⟨some buf, offset⟩, events⟩).2.events,
      ¬ event.Safe buf.length := by
  by_cases hthree : offset + 2 + 1 ≤ buf.length
  · have hpath : ¬ (offset + 2 + 1 + ((buf.drop (offset + 2)).headD 0).toNat ≤ buf.length) := by
      intro hall
      apply hno
      apply exists_rawStream
      rw [List.drop_drop, List.length_drop]
      omega
    simp only [streamStartPush, bind_apply, readBe16_apply, readByte_apply, emit_apply]
    rw [readBytes_apply hthree hb, if_neg hpath]
    refine ⟨.memcpy none ((buf.drop (offset + 2)).headD 0).toNat, by simp, ?_⟩
    simp only [PushEvent.Safe, Reaches, Option.getD_none, List.length_nil]
    omega
  · refine ⟨.read (offset + 2) 1, ?_, ?_⟩
    · simp only [streamStartPush, bind_apply readBe16, bind_apply readByte, readBe16_apply,
        readByte_apply]
      refine ((keeps_readBytes cfg _).bind fun _ => (keeps_emit _).bind fun _ => keeps_emit _) _ ?_
      simp
    · simp only [PushEvent.Safe]
      omega

theorem streamPush_next (cfg : Config) (streamId : UInt8) (isLast : Bool) :
    pouchDownlinkStreamPush cfg streamId false isLast = streamDataPush cfg streamId isLast := rfl

theorem streamPush_first (cfg : Config) (streamId : UInt8) (isLast : Bool) (c : Consumer) :
    pouchDownlinkStreamPush cfg streamId true isLast c =
      streamDataPush cfg streamId isLast (streamStartPush cfg streamId c).2 := rfl

theorem streamDataPush_eq (events : List PushEvent) (hb : buf.length < 2^cfg.sizeBits) (ho : offset ≤ buf.length)
    (streamId : UInt8) (isLast : Bool) :
    streamDataPush cfg streamId isLast ⟨⟨some buf, offset⟩, events⟩ =
      ((), ⟨⟨some buf, offset + (buf.length - offset) % 65536⟩,
        events++[.advance (offset + (buf.length - offset) % 65536),
          .data streamId.toUInt32 (some (buf.drop offset)) ((buf.length - offset) % 65536)
            isLast]⟩) := by
  have hmod := Nat.mod_le (buf.length - offset) 65536
  simp only [streamDataPush, bind_apply, available_apply ho hb, emit_apply]
  rw [readBytes_apply ho hb, if_pos (by omega)]
  simp

theorem streamDataPush_inside (hb : buf.length < 2^cfg.sizeBits) (ho : offset ≤ buf.length)
    (streamId : UInt8) (isLast : Bool) (hev : ∀ event ∈ events, event.Safe buf.length) :
    ∀ event ∈ (streamDataPush cfg streamId isLast ⟨⟨some buf, offset⟩, events⟩).2.events,
      event.Safe buf.length := by
  have hmod := Nat.mod_le (buf.length - offset) 65536
  intro event hmem
  rw [streamDataPush_eq events hb ho, List.mem_append] at hmem
  cases hmem with
  | inl hold => exact hev event hold
  | inr hnew =>
    simp only [List.mem_cons, List.not_mem_nil, or_false] at hnew
    cases hnew with
    | inl he =>
      rw [he, PushEvent.Safe]
      omega
    | inr he =>
      rw [he, PushEvent.Safe, Reaches, Option.getD_some, List.length_drop]
      exact hmod

/-- A block of a stream only has to have a whole header, and only if it is the first. -/
theorem streamPush_inside (hb : buf.length < 2^cfg.sizeBits) (ho : offset ≤ buf.length)
    (streamId : UInt8) (isFirst isLast : Bool) (hev : ∀ event ∈ events, event.Safe buf.length) :
    (∀ event ∈ (pouchDownlinkStreamPush cfg streamId isFirst isLast
        ⟨⟨some buf, offset⟩, events⟩).2.events, event.Safe buf.length) ↔
      (isFirst = true → WholeHeader (buf.drop offset)) := by
  cases isFirst with
  | false => exact iff_of_true (streamDataPush_inside hb ho streamId isLast hev) nofun
  | true =>
    simp only [streamPush_first, true_implies]
    by_cases hwhole : WholeHeader (buf.drop offset)
    · refine iff_of_true ?_ hwhole
      obtain ⟨h, data, hrest⟩ := hwhole
      have hlen := congrArg List.length hrest
      simp only [List.length_drop, List.length_append] at hlen
      have hstart := h.length_encoding
      rw [streamStartPush_whole hb hrest streamId]
      apply streamDataPush_inside hb (by omega)
      intro event hmem
      cases List.mem_append.mp hmem with
      | inl hold => exact hev event hold
      | inr hnew =>
        have hall : ∀ event ∈ h.events streamId offset data, event.Safe buf.length := by
          simp [RawStream.events, PushEvent.Safe, Reaches]
          omega
        exact hall event hnew
    · refine iff_of_false ?_ hwhole
      intro hsafe
      obtain ⟨event, hmem, hbad⟩ := streamStartPush_unsafe events hb hwhole streamId
      exact hbad (hsafe event (keeps_streamDataPush cfg streamId isLast _ hmem))

theorem blockPush_eq (cfg : Config) (passes : Nat) (buf : Buf) :
    blockPush cfg passes buf =
      if (blockHdr buf).isStream then
        (true, (pouchDownlinkStreamPush cfg (blockHdr buf).streamId (blockHdr buf).isFirst
          (blockHdr buf).isLast ⟨⟨some buf, 3⟩, [.read 0 2, .read 2 1]⟩).2.events)
      else
        ((pouchDownlinkEntriesPush cfg passes ⟨⟨some buf, 3⟩, [.read 0 2, .read 2 1]⟩).1,
          (pouchDownlinkEntriesPush cfg passes
            ⟨⟨some buf, 3⟩, [.read 0 2, .read 2 1]⟩).2.events) := by
  have hdr : decodeHdr ⟨pouchBufviewInit buf, []⟩ =
      (blockHdr buf, ⟨⟨some buf, 3⟩, [.read 0 2, .read 2 1]⟩) := rfl
  simp only [blockPush, pouchDownlinkBlockPush, bind_apply, hdr]
  cases (blockHdr buf).isStream <;> rfl

theorem keeps_streamPush (cfg : Config) (streamId : UInt8) (isFirst isLast : Bool) :
    Keeps (pouchDownlinkStreamPush cfg streamId isFirst isLast) := by
  cases isFirst with
  | false => exact keeps_streamDataPush cfg streamId isLast
  | true =>
    exact (keeps_streamStartPush cfg streamId).bind fun _ => keeps_streamDataPush cfg streamId isLast

theorem blockPush_reads_header (cfg : Config) (passes : Nat) (buf : Buf) :
    .read 2 1 ∈ (blockPush cfg passes buf).2 := by
  have hmem : PushEvent.read 2 1 ∈ [.read 0 2, .read 2 1] := by simp
  rw [blockPush_eq]
  split
  · exact keeps_streamPush cfg _ _ _ _ hmem
  · exact keeps_entriesPush cfg _ _ hmem

end

/-- The parser stays inside its buffer exactly on the blocks that can be parsed. -/
theorem staysInside_iff (cfg : Config) (buf : Buf) (hlen : buf.length ≤ cfg.maxCiphertextBlockSize) :
    StaysInside cfg buf ↔ Parsable buf := by
  have hb := lt_of_le_of_lt hlen cfg.maxCiphertextBlockSize_lt
  by_cases hthree : 3 ≤ buf.length
  · have hhdr : ∀ event ∈ ([.read 0 2, .read 2 1] : List PushEvent), event.Safe buf.length := by
      simp [PushEvent.Safe]
      omega
    simp only [StaysInside, Parsable, hthree, true_and, blockPush_eq]
    cases hs : (blockHdr buf).isStream with
    | true =>
      simp only [if_true, true_and, exists_const]
      exact streamPush_inside hb hthree _ _ _ hhdr
    | false =>
      simp only [Bool.false_eq_true, if_false]
      constructor
      · intro h
        obtain ⟨passes, hret, hsafe⟩ := h
        exact entriesPush_inside hb passes hthree hret hsafe
      · intro h
        obtain ⟨es, hes⟩ := h
        have hloop := entriesPush_whole [.read 0 2, .read 2 1] hb es (Nat.lt_succ_self _)
          hthree hes
        refine ⟨es.length + 1, by rw [hloop], ?_⟩
        rw [hloop]
        intro event hmem
        cases List.mem_append.mp hmem with
        | inl hold => exact hhdr event hold
        | inr hnew =>
          refine entriesEvents_safe es ?_ event hnew
          rw [← hes, blockPayload, List.length_drop]
          omega
  · refine iff_of_false ?_ fun h => hthree h.1
    intro h
    obtain ⟨passes, -, hsafe⟩ := h
    have hread := hsafe _ (blockPush_reads_header cfg passes buf)
    simp only [PushEvent.Safe] at hread
    omega

theorem staysInside_one_entry : StaysInside plainConfig [0, 8, 0xC0, 0, 1, 0, 42, 1, 0x61, 7] := by
  refine (staysInside_iff plainConfig _ (by decide)).mpr ⟨by decide, ?_⟩
  exact ⟨[⟨42, [0x61], [7], by decide, by decide⟩], by decide⟩

theorem not_wholeEntries {b : Buf} (hpos : 0 < b.length) (hshort : b.length < 5) :
    ¬ WholeEntries b := by
  intro h
  obtain ⟨es, he⟩ := h
  cases es with
  | nil => simp [he] at hpos
  | cons e es =>
    have hlen := e.length_encoding
    rw [he, List.flatMap_cons, List.length_append] at hshort
    omega

/-- The receiver hands over a block without an id byte, and one that ends within the header
of an entry; the parser reads past the end of both. -/
theorem short_blocks_leave_buffer :
    (pouchDownlinkPush plainConfig plainEnv (pouchDownlinkStart plainEnv plainBoot)
      (plainHeader++[0, 0, 0])).decrypt.queue = [[0, 0]] ∧
    ¬ StaysInside plainConfig [0, 0] ∧
    (pouchDownlinkPush plainConfig plainEnv (pouchDownlinkStart plainEnv plainBoot)
      (plainHeader++[0, 2, 0xC0, 0])).decrypt.queue = [[0, 2, 0xC0, 0]] ∧
    ¬ StaysInside plainConfig [0, 2, 0xC0, 0] := by
  refine ⟨by decide, ?_, by decide, ?_⟩
  · intro h
    obtain ⟨passes, -, hsafe⟩ := h
    have hread := hsafe _ (blockPush_reads_header plainConfig passes [0, 0])
    simp [PushEvent.Safe] at hread
  · intro h
    obtain ⟨passes, hret, hsafe⟩ := h
    have hwhole : WholeEntries (List.drop 3 [0, 2, 0xC0, 0]) :=
      entriesPush_inside (by decide) passes (by decide) hret hsafe
    exact not_wholeEntries (by decide) (by decide) hwhole

end Pouch
