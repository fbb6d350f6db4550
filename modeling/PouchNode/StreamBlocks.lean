import PouchNode.Lib.Chunks
import PouchNode.StreamIds

/-! What one stream turns its data into: full blocks, of which the first is marked, and a
block that is still open. -/
namespace Pouch
open Chunks

def flagged (id : UInt8) (first : Bool) : UInt8 := id ||| if first then firstDataMask else 0

def segments (id : UInt8) : Bool → List Buf → List Buf
  | _, [] => []
  | first, p :: ps => closedBlock (flagged id first) p :: segments id false ps

def closedSegments (id : UInt8) (first : Bool) (full : List Buf) (last : Buf) : List Buf :=
  segments id first full++
    [closedBlock (flagged id (first && full.isEmpty) ||| lastDataMask) last]

theorem segments_append (id : UInt8) (first : Bool) (ps qs : List Buf) :
    segments id first (ps++qs) = segments id first ps++segments id (first && ps.isEmpty) qs := by
  induction ps generalizing first with
  | nil => simp [segments]
  | cons p ps ih => simp [segments, ih]

theorem segments_map_payload (id : UInt8) (first : Bool) (ps : List Buf) :
    (segments id first ps).map blockPayload = ps := by
  induction ps generalizing first with
  | nil => rfl
  | cons p ps ih => simp [segments, ih]

/-- The header of a finished stream block says where in its stream it stands. -/
theorem blockHdr_stream (k : Nat) (first last : Bool) (p : Buf) :
    blockHdr (closedBlock (flagged (streamIdAt k) first ||| if last then lastDataMask else 0) p) =
      ⟨(1 + p.length) % 65536, streamIdAt k, true, first, last⟩ := by
  have hbits : ∀ r < 31, ∀ first last : Bool,
      let id := UInt8.ofNat (r + 1)
      let byte := flagged id first ||| if last then lastDataMask else 0
      byte &&& blockIdMask = id ∧ (byte &&& blockIdMask ≠ blockIdEntry) ∧
        (decide (byte &&& firstDataMask ≠ 0) = first) ∧
        (decide (byte &&& lastDataMask ≠ 0) = last) := by
    decide
  obtain ⟨hid, hne, hfirst, hlast⟩ := hbits (k % 31) (Nat.mod_lt _ (by decide)) first last
  rw [blockHdr_closedBlock, streamIdAt, hfirst, hlast, decide_eq_true hne, hid]

theorem blockHdr_open (k : Nat) (first : Bool) (p : Buf) :
    blockHdr (closedBlock (flagged (streamIdAt k) first) p) =
      ⟨(1 + p.length) % 65536, streamIdAt k, true, first, false⟩ := by
  have h := blockHdr_stream k first false p
  simpa using h

section
variable {cfg : Config} {p data : Buf} {first : Bool}

theorem blockAllocStream_eq (alloc : Bool) (id : UInt8) :
    blockAllocStream alloc id first = if alloc then some (openBlock (flagged id first) []) else none :=
  rfl

theorem blockFinishStream_openBlock (hp : p.length ≤ cfg.maxBlockPayloadSize) (id : UInt8)
    (last : Bool) :
    blockFinishStream cfg (openBlock (flagged id first) p) id last =
      closedBlock (flagged id first ||| if last then lastDataMask else 0) p :=
  finish_openBlock _ hp _ _

/-- The write loop. It takes the front of the data, and leaves some only if a block could
not be allocated; the blocks it gives away are full. -/
theorem streamWriteLoop_spec (alloc : Nat → Bool) (id : UInt8) (first : Bool) (passes allocs : Nat)
    (hpass : data.length ≤ passes) (hp : p.length ≤ cfg.maxBlockPayloadSize) :
    ∃ taken rest full last, data = taken++rest ∧ (rest = [] ∨ ∃ k, alloc k = false) ∧
      streamWriteLoop cfg alloc id passes allocs (openBlock (flagged id first) p) data =
        (openBlock (flagged id (first && full.isEmpty)) last, rest, segments id first full) ∧
      Cut cfg.maxBlockPayloadSize full last (p++taken) := by
  have hmax := cfg.maxBlockPayloadSize_pos
  induction passes generalizing allocs first p data with
  | zero =>
    have hnil : data = [] := List.length_eq_zero_iff.mp (by omega)
    refine ⟨[], [], [], p, by simp [hnil], Or.inl rfl, ?_, ?_⟩
    · simp [streamWriteLoop, hnil, segments]
    · simpa using Cut.one hp
  | succ passes ih =>
    by_cases hnil : data.length = 0
    · refine ⟨[], data, [], p, rfl, Or.inl (List.length_eq_zero_iff.mp hnil), ?_, ?_⟩
      · simp [streamWriteLoop, hnil, segments]
      · simpa using Cut.one hp
    have hspace := blockSpaceGet_openBlock (flagged id first) hp
    by_cases hfull : p.length = cfg.maxBlockPayloadSize
    · cases ha : alloc allocs with
      | false =>
        refine ⟨[], data, [], p, rfl, Or.inr ⟨allocs, ha⟩, ?_, ?_⟩
        · simp [streamWriteLoop, hnil, hspace, hfull, blockAllocStream, ha, segments]
        · simpa using Cut.one hp
      | true =>
        -- the full block goes, the data starts a new one
        obtain ⟨n, hn⟩ : ∃ n, n = min cfg.maxBlockPayloadSize data.length := ⟨_, rfl⟩
        have hlen : (data.take n).length ≤ cfg.maxBlockPayloadSize := by
          rw [List.length_take]
          omega
        have hrest : (data.drop n).length ≤ passes := by
          rw [List.length_drop]
          omega
        have hstart : data.take n ≠ [] := by
          apply List.ne_nil_of_length_pos
          rw [List.length_take]
          omega
        obtain ⟨taken, rest, full, last, hd, hr, hloop, hcut⟩ :=
          ih false (allocs + 1) hrest hlen
        refine ⟨data.take n++taken, rest, p :: full, last, ?_, hr, ?_, ?_⟩
        · rw [List.append_assoc, ← hd, List.take_append_drop]
        · have hfin : blockFinishStream cfg (openBlock (flagged id first) p) id false =
              closedBlock (flagged id first) p := by
            rw [blockFinishStream_openBlock hp]
            simp
          simp [streamWriteLoop, hnil, hspace, hfull, blockAllocStream_eq, ha, blockSpaceGet_new,
            ← hn, bufWrite, hloop, hfin, segments]
        · exact Cut.cons hfull (by simp [hstart]) hcut
    · obtain ⟨n, hn⟩ : ∃ n, n = min (cfg.maxBlockPayloadSize - p.length) data.length := ⟨_, rfl⟩
      have hlen : (p++data.take n).length ≤ cfg.maxBlockPayloadSize := by
        rw [List.length_append, List.length_take]
        omega
      have hrest : (data.drop n).length ≤ passes := by
        rw [List.length_drop]
        omega
      obtain ⟨taken, rest, full, last, hd, hr, hloop, hcut⟩ := ih first allocs hrest hlen
      refine ⟨data.take n++taken, rest, full, last, ?_, hr, ?_, ?_⟩
      · rw [List.append_assoc, ← hd, List.take_append_drop]
      · have hroom : cfg.maxBlockPayloadSize - p.length ≠ 0 := by omega
        simp [streamWriteLoop, hnil, hspace, hroom, ← hn, bufWrite, hloop]
      · rwa [← List.append_assoc]

def PouchStream.Ok (cfg : Config) (stream : PouchStream) : Prop :=
  ∃ first p, stream.buf = openBlock (flagged stream.id first) p ∧
    p.length ≤ cfg.maxBlockPayloadSize

theorem pouchStreamWrite_spec (sessionId : UInt32) (alloc : Nat → Bool) (id : UInt8) (bytes : Nat)
    (first : Bool) (data : Buf) (hp : p.length ≤ cfg.maxBlockPayloadSize) :
    ∃ taken full last, taken = data.take taken.length ∧ (taken = data ∨ ∃ k, alloc k = false) ∧
      pouchStreamWrite cfg sessionId alloc ⟨id, openBlock (flagged id first) p, bytes, sessionId⟩
        data =
        (taken.length,
          ⟨id, openBlock (flagged id (first && full.isEmpty)) last,
            (bytes + taken.length) % 2^cfg.sizeBits, sessionId⟩,
          segments id first full) ∧
      Cut cfg.maxBlockPayloadSize full last (p++taken) := by
  obtain ⟨taken, rest, full, last, hd, hr, hloop, hcut⟩ :=
    streamWriteLoop_spec alloc id first data.length 0 (le_refl _) hp
  refine ⟨taken, full, last, ?_, ?_, ?_, hcut⟩
  · rw [hd, List.take_left]
  · cases hr with
    | inl hnil => exact Or.inl (by rw [hd, hnil, List.append_nil])
    | inr hfail => exact Or.inr hfail
  · have hlen : data.length - rest.length = taken.length := by
      rw [hd, List.length_append, Nat.add_sub_cancel]
    simp [pouchStreamWrite, pouchStreamIsValid, hloop, hlen]

end
end Pouch
