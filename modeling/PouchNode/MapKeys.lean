import PouchNode.ZcborMap

/-! Which entry map_entry_get finds for a key. It looks at the type of the entry alone, so a
key of the other type may be taken for the one that is requested. -/
namespace Pouch
open Loop

section
variable {ω : Type*} (mem : Memory) (entries : List (ZcborMapEntry ω)) (key : ZcborMapKey)
  (k : PairKey)

def ComparesText : Prop :=
  ∃ i text, (entries.get i).key = .tstr text ∧ (k.put key).len = text.length ∧
    ∀ j < i, entryMatches mem (entries.get j).key (k.put key) = false

/- An entry that is chosen for the key asks for this key, and for an integer no pointer is
   used. -/
structure PicksByType : Prop where
  same : ∀ i, mapEntryGet mem entries (k.put key) = some i → k.For mem (entries.get i).key
  pointer : ∀ n, k = .u32 n → ¬ ComparesText mem entries key k

/- What is in the union looks like the key of an entry of the other type: the low bytes of the
   pointer of a text like an integer, or the length that an earlier text has left like that of
   a text. -/
def LooksLike (entry : EntryKey) : Prop :=
  match k, entry with
  | .tstr text, .u32 n => n.toNat = text.value % 2^32
  | .u32 _, .tstr text => key.len = text.length
  | _, _ => False

variable {mem entries key k}

theorem entryMatches_of_for {entry : EntryKey} (h : k.For mem entry) :
    entryMatches mem entry (k.put key) = true := by
  cases k with
  | u32 n =>
    obtain rfl : entry = .u32 n := h
    simp [entryMatches, PairKey.put, ZcborMapKey.setU32_u32]
  | tstr text =>
    obtain rfl : entry = .tstr (mem.bytesAt text.value text.len) := h
    simp [entryMatches, PairKey.put, ZcborMapKey.setTstr, Memory.bytesAt]
  | otherInt => exact absurd h id

/-- A match is a key of the same type and value, or something that looks like it. -/
theorem for_or_looksLike {entry : EntryKey} (hkey : k ≠ .otherInt)
    (h : entryMatches mem entry (k.put key) = true) : k.For mem entry ∨ LooksLike key k entry := by
  cases k with
  | otherInt => exact absurd rfl hkey
  | u32 n =>
    cases entry with
    | u32 m =>
      have hm : m.toNat = n.toNat := by
        simpa [entryMatches, PairKey.put, ZcborMapKey.setU32_u32] using h
      exact Or.inl (congrArg EntryKey.u32 (UInt32.toNat_inj.mp hm))
    | tstr text =>
      simp only [entryMatches, Bool.and_eq_true, decide_eq_true_eq] at h
      exact Or.inr h.1
  | tstr text =>
    cases entry with
    | u32 m =>
      have hm : m.toNat = text.value % 2^32 := of_decide_eq_true h
      exact Or.inr hm
    | tstr bytes =>
      simp only [entryMatches, Bool.and_eq_true, decide_eq_true_eq] at h
      obtain ⟨hlen, hbytes⟩ := h
      refine Or.inl (congrArg EntryKey.tstr (hbytes.trans ?_))
      rw [← hlen]
      rfl

theorem not_for_of_looksLike {entry : EntryKey} (h : LooksLike key k entry) : ¬ k.For mem entry := by
  cases k with
  | u32 n =>
    cases entry with
    | u32 m => exact absurd h id
    | tstr text => simp [PairKey.For]
  | tstr text =>
    cases entry with
    | u32 m => simp [PairKey.For]
    | tstr bytes => exact absurd h id
  | otherInt => exact absurd h id

theorem exists_mapEntryGet {key : ZcborMapKey} {i : Fin entries.length}
    (h : entryMatches mem (entries.get i).key key = true) :
    ∃ m ≤ i, mapEntryGet mem entries key = some m := by
  cases hget : mapEntryGet mem entries key with
  | none =>
    have hnone := Fin.find?_eq_none_iff.mp hget i
    rw [h] at hnone
    cases hnone
  | some m =>
    refine ⟨m, ?_, rfl⟩
    by_contra hlt
    have hfalse := (Fin.find?_eq_some_iff.mp hget).2 i (not_le.mp hlt)
    rw [h] at hfalse
    cases hfalse

/-- For one key: the entry is chosen by type and value exactly if whatever looks like the key
comes behind an entry for it. -/
theorem picksByType_iff (hkey : k ≠ .otherInt) :
    PicksByType mem entries key k ↔
      ∀ i, LooksLike key k (entries.get i).key → ∃ j < i, k.For mem (entries.get j).key := by
  constructor
  · intro h i hlooks
    -- either way there is a match at i or before, and the first one is for the key
    have hmatch : ∃ j ≤ i, entryMatches mem (entries.get j).key (k.put key) = true := by
      cases hentry : (entries.get i).key with
      | u32 m =>
        rw [hentry] at hlooks
        refine ⟨i, le_rfl, ?_⟩
        cases k with
        | tstr text =>
          have hm : m.toNat = text.value % 2^32 := hlooks
          rw [hentry]
          exact decide_eq_true hm
        | u32 n => exact absurd hlooks id
        | otherInt => exact absurd hlooks id
      | tstr text =>
        rw [hentry] at hlooks
        by_contra hnone
        cases k with
        | u32 n =>
          refine h.pointer n rfl ⟨i, text, hentry, hlooks, fun j hj => ?_⟩
          rw [← Bool.not_eq_true]
          exact fun hj' => hnone ⟨j, hj.le, hj'⟩
        | tstr bytes => exact absurd hlooks id
        | otherInt => exact absurd hlooks id
    obtain ⟨j, hj, hmatch⟩ := hmatch
    obtain ⟨m, hm, hget⟩ := exists_mapEntryGet hmatch
    have hfor := h.same m hget
    refine ⟨m, lt_of_le_of_ne (hm.trans hj) fun heq => ?_, hfor⟩
    exact not_for_of_looksLike (heq ▸ hlooks) hfor
  · intro h
    have hfirst : ∀ i, LooksLike key k (entries.get i).key →
        (∀ j < i, entryMatches mem (entries.get j).key (k.put key) = false) → False := by
      intro i hlooks hbefore
      obtain ⟨j, hj, hfor⟩ := h i hlooks
      have hfalse := hbefore j hj
      rw [entryMatches_of_for hfor] at hfalse
      cases hfalse
    constructor
    · intro m hget
      obtain ⟨hm, hbefore⟩ := Fin.find?_eq_some_iff.mp hget
      cases for_or_looksLike hkey hm with
      | inl hfor => exact hfor
      | inr hlooks => exact absurd hbefore (hfirst m hlooks)
    · rintro n rfl ⟨i, text, hentry, hlen, hbefore⟩
      refine hfirst i ?_ hbefore
      rw [hentry]
      exact hlen

theorem mapKeyRead_ne_otherInt {lib : Zcbor} {z z' : ZcborState}
    (h : mapKeyRead lib mem z = some (k, z')) : k ≠ .otherInt := by
  rintro rfl
  simp only [mapKeyRead] at h
  split at h
  · obtain ⟨pair, -, heq⟩ := Option.map_eq_some_iff.mp h
    cases heq
  · obtain ⟨pair, -, heq⟩ := Option.map_eq_some_iff.mp h
    cases heq
  · cases h

end

/-- Through the whole of every map, the entry for each key, as it lies there, is chosen by its
type and value exactly if at each key whatever looks like it comes behind an entry for it. -/
theorem map_keys_by_type_iff {ω : Type*} (lib : Zcbor) (mem : Memory)
    (entries : List (ZcborMapEntry ω)) (key : ZcborMapKey) (d : Decoder ω) :
    (∀ s, MapLoop.Comes lib mem entries ⟨d, key, []⟩ s →
      ∀ k z, PairDue lib mem entries.length s.numDecoded s.decoder.zsd k z →
        PicksByType mem entries s.key k) ↔
    ∀ s, MapLoop.Comes lib mem entries ⟨d, key, []⟩ s →
      ∀ k z, PairDue lib mem entries.length s.numDecoded s.decoder.zsd k z →
        ∀ i, LooksLike s.key k (entries.get i).key → ∃ j < i, k.For mem (entries.get j).key := by
  constructor
  · intro h s hcomes k z hdue
    exact (picksByType_iff (mapKeyRead_ne_otherInt hdue.key)).mp (h s hcomes k z hdue)
  · intro h s hcomes k z hdue
    exact (picksByType_iff (mapKeyRead_ne_otherInt hdue.key)).mpr (h s hcomes k z hdue)

def textKey : Memory := memoryAt ramBase [0xA1, 0x61, 0x78, 0x07]
def addressRequested : List (ZcborMapEntry Unit) :=
  [.skipping (shortZcbor textKey) (.u32 0x20000002)]
def textThenOne : Memory := memoryAt ramBase [0xA2, 0x62, 0x78, 0x79, 0x07, 0x01, 0x07]
def twoBytesRequested : List (ZcborMapEntry Unit) :=
  [.skipping (shortZcbor textThenOne) (.tstr [0x61, 0x62]),
    .skipping (shortZcbor textThenOne) (.u32 1)]

/-- The text key selects the integer entry; and for the integer key, memcmp is given the address
1. -/
theorem map_keys_mistaken :
    mapEntryGet textKey addressRequested ⟨.tstr, 0x20000002, 1⟩ = some ⟨0, by decide⟩ ∧
    (¬ ∀ s, MapLoop.Comes (shortZcbor textKey) textKey addressRequested
        ⟨⟨⟨ramBase + 1, ramBase + 4, 2, false, [(0, false)], 1⟩, [], ()⟩, ⟨.u32, 0, 0⟩, []⟩ s →
      ∀ k z, PairDue (shortZcbor textKey) textKey addressRequested.length s.numDecoded
        s.decoder.zsd k z → PicksByType textKey addressRequested s.key k) ∧
    ¬ ∀ s, MapLoop.Comes (shortZcbor textThenOne) textThenOne twoBytesRequested
        ⟨⟨⟨ramBase + 1, ramBase + 7, 4, false, [(0, false)], 1⟩, [], ()⟩, ⟨.u32, 0, 0⟩, []⟩ s →
      ∀ k z, PairDue (shortZcbor textThenOne) textThenOne twoBytesRequested.length s.numDecoded
        s.decoder.zsd k z → PicksByType textThenOne twoBytesRequested s.key k := by
  refine ⟨rfl, fun h => ?_, fun h => ?_⟩
  · have hpicks := h _ (.refl _) (.tstr ⟨0x20000002, 1⟩) _ ⟨by decide, by decide, rfl⟩
    exact absurd (hpicks.same ⟨0, by decide⟩ rfl) (by decide)
  · have hpicks := h _ (.head rfl (.refl _)) (.u32 1) _ ⟨by decide, by decide, rfl⟩
    exact hpicks.pointer 1 rfl ⟨⟨0, by decide⟩, [0x61, 0x62], rfl, rfl, fun j hj =>
      absurd hj (Nat.not_lt_zero _)⟩

end Pouch
