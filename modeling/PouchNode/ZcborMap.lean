import PouchNode.Zcbor

/-! The loop of zcbor_map_decode over the pairs of a map: the keys as they lie in memory, and
what the loop comes through. Whether all entries were there is judged by the number of pairs. -/
namespace Pouch
open Loop

inductive PairKey where
  | u32 (k : UInt32)
  | tstr (text : ZcborString)
  | otherInt
  deriving DecidableEq

def PairKey.put (key : ZcborMapKey) : PairKey → ZcborMapKey
  | .u32 k => key.setU32 k
  | .tstr text => key.setTstr text
  | .otherInt => key

def PairKey.For (mem : Memory) (entry : EntryKey) : PairKey → Prop
  | .u32 k => entry = .u32 k
  | .tstr text => entry = .tstr (mem.bytesAt text.value text.len)
  | .otherInt => False

instance (mem : Memory) (entry : EntryKey) (k : PairKey) : Decidable (k.For mem entry) :=
  match k with
  | .u32 k => inferInstanceAs (Decidable (entry = .u32 k))
  | .tstr text => inferInstanceAs (Decidable (entry = .tstr (mem.bytesAt text.value text.len)))
  | .otherInt => .isFalse id

def ZcborState.Ended (mem : Memory) (z : ZcborState) : Prop :=
  if z.indefinite then mem z.payload = 0xFF else z.elemCount = 0

instance (mem : Memory) (z : ZcborState) : Decidable (z.Ended mem) :=
  inferInstanceAs (Decidable (if z.indefinite then mem z.payload = 0xFF else z.elemCount = 0))

section
variable (lib : Zcbor) (mem : Memory)

def mapKeyRead (z : ZcborState) : Option (PairKey × ZcborState) :=
  match zcborMajorType (mem z.payload) with
  | .tstr => (lib.tstrDecode z).map fun (text, z) => (.tstr text, z)
  | .pint => (lib.uint32Decode z).map fun (k, z) => (.u32 k, z)
  | _ => none

structure PairDue (n decoded : Nat) (z : ZcborState) (k : PairKey) (z' : ZcborState) : Prop where
  wanted : decoded < n
  more : ¬ z.Ended mem
  key : mapKeyRead lib mem z = some (k, z')

end

section
variable {ω : Type*} {lib : Zcbor} {mem : Memory} {z z' : ZcborState} {k : PairKey}

theorem zcborListOrMapEnd_zsd (mem : Memory) (d : Decoder ω) :
    (zcborListOrMapEnd mem d).2.zsd = d.zsd ∧ (zcborListOrMapEnd mem d).2.world = d.world := by
  unfold zcborListOrMapEnd
  split <;> exact ⟨rfl, rfl⟩

theorem zcborListOrMapEnd_fst (mem : Memory) (d : Decoder ω) :
    (zcborListOrMapEnd mem d).1 = true ↔ d.zsd.Ended mem := by
  cases h : d.zsd.indefinite <;> simp [zcborListOrMapEnd, ZcborState.Ended, h]

theorem zcborListOrMapEnd_more {d : Decoder ω} (h : ¬ d.zsd.Ended mem) :
    (zcborListOrMapEnd mem d).1 = false := by
  rw [← Bool.not_eq_true, zcborListOrMapEnd_fst]
  exact h

theorem ZcborMapKey.setU32_u32 (key : ZcborMapKey) (n : UInt32) : (key.setU32 n).u32 = n.toNat := by
  have hlt := n.toNat_lt
  simp only [ZcborMapKey.setU32, ZcborMapKey.u32]
  omega

theorem zcborMapKeyDecode_eq (lib : Zcbor) (mem : Memory) (key : ZcborMapKey) (d : Decoder ω) :
    zcborMapKeyDecode lib mem key d =
      match mapKeyRead lib mem d.zsd with
      | none => (.error .ebadmsg, d.look)
      | some (k, zsd) => (.ok (k.put key), { d.look with zsd }) := by
  simp only [zcborMapKeyDecode, mapKeyRead]
  cases zcborMajorType (mem d.zsd.payload) with
  | tstr => cases lib.tstrDecode d.zsd <;> rfl
  | pint => cases lib.uint32Decode d.zsd <;> rfl
  | _ => rfl

theorem mapKeyRead_reads (hlib : lib.Lawful mem) (h : mapKeyRead lib mem z = some (k, z')) :
    z.Reads z' := by
  simp only [mapKeyRead] at h
  split at h
  · obtain ⟨⟨text, zsd⟩, hdecode, heq⟩ := Option.map_eq_some_iff.mp h
    cases heq
    exact hlib.tstr _ _ _ hdecode
  · obtain ⟨⟨k', zsd⟩, hdecode, heq⟩ := Option.map_eq_some_iff.mp h
    cases heq
    exact (hlib.uint32 _ _ _ hdecode).1
  · cases h

end

section
variable {ω : Type*} (lib : Zcbor) (mem : Memory) (entries : List (ZcborMapEntry ω))

structure MapLoop.Reads (s : MapLoop ω entries.length) (key : ZcborMapKey) (d : Decoder ω) :
    Prop where
  wanted : s.numDecoded < entries.length
  more : (zcborListOrMapEnd mem s.decoder).1 = false
  decoded : zcborMapKeyDecode lib mem s.key (zcborListOrMapEnd mem s.decoder).2 = (.ok key, d)

abbrev MapLoop.Comes (s t : MapLoop ω entries.length) : Prop :=
  Loop.Reaches (mapDecodeStep lib mem entries) s t

variable {lib mem entries} {s t : MapLoop ω entries.length}

/-- The loop goes on exactly behind a pair that has been read whole. -/
theorem mapDecodeStep_inl :
    mapDecodeStep lib mem entries s = some (.inl t) ↔
      ∃ key d d', s.Reads lib mem entries key d ∧
        entryDecode lib entries (mapEntryGet mem entries key) d = some (.ok, d') ∧
        t = ⟨d', key, s.pairs++[mapEntryGet mem entries key]⟩ := by
  constructor
  · intro h
    simp only [mapDecodeStep] at h
    split at h
    · next hwanted =>
      cases hmore : (zcborListOrMapEnd mem s.decoder).1 with
      | true => simp [hmore] at h
      | false =>
        simp only [hmore, Bool.false_eq_true, if_false] at h
        split at h
        · simp at h
        · next key d hkey =>
          split at h
          · cases h
          · simp at h
          · next d' hentry =>
            simp only [Option.some.injEq, Sum.inl.injEq] at h
            exact ⟨key, d, d', ⟨hwanted, hmore, hkey⟩, hentry, h.symm⟩
    · simp at h
  · rintro ⟨key, d, d', ⟨hwanted, hmore, hkey⟩, hentry, rfl⟩
    simp [mapDecodeStep, hwanted, hmore, hkey, hentry]

/-- The loop ends without an error when enough has been decoded, or at the end of the map. -/
theorem mapDecodeStep_inr (h : mapDecodeStep lib mem entries s = some (.inr (none, t))) :
    (entries.length ≤ s.numDecoded ∧ t = s) ∨
    (s.numDecoded < entries.length ∧ (zcborListOrMapEnd mem s.decoder).1 = true ∧
      t = { s with decoder := (zcborListOrMapEnd mem s.decoder).2 }) := by
  simp only [mapDecodeStep] at h
  split at h
  · next hwanted =>
    cases hmore : (zcborListOrMapEnd mem s.decoder).1 with
    | true =>
      simp only [hmore, if_true, Option.some.injEq, Sum.inr.injEq, Prod.mk.injEq, true_and] at h
      exact Or.inr ⟨hwanted, rfl, h.symm⟩
    | false =>
      simp only [hmore, Bool.false_eq_true, if_false] at h
      split at h
      · simp at h
      · split at h
        · cases h
        · simp at h
        · simp at h
  · next hwanted =>
    simp only [Option.some.injEq, Sum.inr.injEq, Prod.mk.injEq, true_and] at h
    exact Or.inl ⟨Nat.le_of_not_lt hwanted, h.symm⟩

theorem mapDecodeStep_enough (h : entries.length ≤ s.numDecoded) :
    mapDecodeStep lib mem entries s = some (.inr (none, s)) := by
  simp [mapDecodeStep, Nat.not_lt.mpr h]

theorem MapLoop.Comes.numDecoded_le (h : MapLoop.Comes lib mem entries s t)
    (hs : s.numDecoded ≤ entries.length) : t.numDecoded ≤ entries.length := by
  refine h.invariant (P := fun s => s.numDecoded ≤ entries.length) (fun s t _ hstep => ?_) hs
  obtain ⟨key, d, d', hreads, -, rfl⟩ := mapDecodeStep_inl.mp hstep
  have hlt := hreads.wanted
  simp only [MapLoop.numDecoded, MapLoop.decoded] at hlt
  simp only [MapLoop.numDecoded, MapLoop.decoded, List.filterMap_append, List.length_append]
  have hone := List.length_filterMap_le id [mapEntryGet mem entries key]
  rw [List.length_singleton] at hone
  omega

section
variable {key : ZcborMapKey} {d : Decoder ω} {zsd : ZcborState}

/-- If zcbor_map_decode returns 0, the loop has come to where as much has been decoded as there
are entries, and the map could be ended there. -/
theorem comes_of_zcborMapDecode (hstart : lib.mapStartDecode d.zsd = some zsd) {fuel : Nat}
    (h : zcborMapDecode lib mem entries fuel key d = some (.ok, t)) :
    0 < entries.length ∧ ∃ s, MapLoop.Comes lib mem entries ⟨{ d with zsd }, key, []⟩ s ∧
      s.numDecoded = entries.length ∧ ∃ last, lib.listMapEndForceDecode s.decoder.zsd = some last ∧
        t = { s with decoder := { s.decoder with zsd := last } } := by
  simp only [zcborMapDecode, hstart] at h
  split at h
  · cases h
  · simp at h
  · next s hrun =>
    obtain ⟨u, hcomes, hend⟩ := exists_of_run hrun
    have hle : u.numDecoded ≤ entries.length :=
      MapLoop.Comes.numDecoded_le hcomes (Nat.zero_le _)
    cases mapDecodeStep_inr hend with
    | inl henough =>
      obtain ⟨henough, rfl⟩ := henough
      have hall : s.numDecoded = entries.length := Nat.le_antisymm hle henough
      split at h
      · simp only [Option.some.injEq, mapEndDecode] at h
        split at h <;> simp at h
      · next hsome =>
        rw [if_neg (Nat.not_lt.mpr henough)] at h
        simp only [Option.some.injEq, mapEndDecode] at h
        split at h
        · simp at h
        · next last hlast =>
          simp only [Prod.mk.injEq, true_and] at h
          exact ⟨by omega, s, hcomes, hall, last, hlast, h.symm⟩
    | inr hended =>
      obtain ⟨hfew, -, rfl⟩ := hended
      split at h
      · simp only [Option.some.injEq, mapEndDecode] at h
        split at h <;> simp at h
      · rw [if_pos (by exact hfew)] at h
        simp at h

/-- And the other way round, if the loop may take enough rounds. -/
theorem zcborMapDecode_of_comes (hstart : lib.mapStartDecode d.zsd = some zsd)
    (hpos : 0 < entries.length) (hcomes : MapLoop.Comes lib mem entries ⟨{ d with zsd }, key, []⟩ s)
    (hall : s.numDecoded = entries.length) {last : ZcborState}
    (hlast : lib.listMapEndForceDecode s.decoder.zsd = some last) :
    ∃ n, ∀ fuel, n < fuel → zcborMapDecode lib mem entries fuel key d =
      some (.ok, { s with decoder := { s.decoder with zsd := last } }) := by
  obtain ⟨n, hn⟩ := hcomes.run (mapDecodeStep_enough hall.ge)
  refine ⟨n, fun fuel hfuel => ?_⟩
  simp only [zcborMapDecode, hstart, hn fuel hfuel, hall]
  rw [if_neg (Nat.ne_of_gt hpos), if_neg (Nat.lt_irrefl _)]
  simp only [mapEndDecode, hlast]

end

theorem MapLoop.decoded_concat {n : Nat} (d : Decoder ω) (key : ZcborMapKey)
    (s : MapLoop ω n) (entry : Option (Fin n)) :
    (MapLoop.mk d key (s.pairs++[entry])).decoded = s.decoded++entry.toList := by
  cases entry <;> simp [MapLoop.decoded]

theorem MapLoop.numDecoded_concat {n : Nat} (d : Decoder ω) (key : ZcborMapKey) (s : MapLoop ω n)
    (entry : Option (Fin n)) :
    (MapLoop.mk d key (s.pairs++[entry])).numDecoded = s.numDecoded + entry.toList.length := by
  rw [MapLoop.numDecoded, MapLoop.decoded_concat, List.length_append]
  rfl

theorem MapLoop.Reads.keyRead {key : ZcborMapKey} {d : Decoder ω}
    (h : s.Reads lib mem entries key d) :
    ∃ k, PairDue lib mem entries.length s.numDecoded s.decoder.zsd k d.zsd ∧ key = k.put s.key ∧
      d.world = s.decoder.world := by
  obtain ⟨hzsd, hworld⟩ := zcborListOrMapEnd_zsd mem s.decoder
  have hdecoded := h.decoded
  rw [zcborMapKeyDecode_eq, hzsd] at hdecoded
  cases hkey : mapKeyRead lib mem s.decoder.zsd with
  | none => simp [hkey] at hdecoded
  | some pair =>
    obtain ⟨k, z⟩ := pair
    simp only [hkey, Prod.mk.injEq, Except.ok.injEq] at hdecoded
    obtain ⟨rfl, rfl⟩ := hdecoded
    refine ⟨k, ⟨h.wanted, fun hended => ?_, hkey⟩, rfl, hworld⟩
    have hmore := h.more
    rw [(zcborListOrMapEnd_fst mem s.decoder).mpr hended] at hmore
    cases hmore

/-- A pair that is due is read. -/
theorem PairDue.reads {k : PairKey} {z : ZcborState}
    (h : PairDue lib mem entries.length s.numDecoded s.decoder.zsd k z) :
    s.Reads lib mem entries (k.put s.key)
      { (zcborListOrMapEnd mem s.decoder).2.look with zsd := z } := by
  obtain ⟨hzsd, -⟩ := zcborListOrMapEnd_zsd mem s.decoder
  have hdecode := zcborMapKeyDecode_eq lib mem s.key (zcborListOrMapEnd mem s.decoder).2
  simp only [hzsd, h.key] at hdecode
  exact ⟨h.wanted, zcborListOrMapEnd_more h.more, hdecode⟩

end

def ZcborMapEntry.skipping (lib : Zcbor) (key : EntryKey) : ZcborMapEntry Unit where
  key := key
  decode d := some (match lib.anySkip d.zsd with
    | none => (.err .ebadmsg, d)
    | some zsd => (.ok, { d with zsd }))

def ramBase : Nat := 0x20000000

end Pouch
