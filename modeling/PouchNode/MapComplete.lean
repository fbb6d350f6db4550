import PouchNode.ZcborMap

/-! What a return value of 0 says of zcbor_map_decode. It counts the pairs that are for an entry,
and once there are as many as entries, it stops: a key that is there twice takes the place of
another. Callbacks are known by what they do: they keep a record of their runs. -/
namespace Pouch
open Loop

/- A callback that keeps a record: of each run with success, which callback it was and where the
   value lay. -/
def ZcborMapEntry.recorded {ω : Type*} (i : Nat) (entry : ZcborMapEntry ω) :
    ZcborMapEntry (ω × List (Nat × Nat)) where
  key := entry.key
  decode d := (entry.decode ⟨d.zsd, d.looked, d.world.1⟩).map fun (ret, d') =>
    (ret, ⟨d'.zsd, d'.looked, d'.world,
      if ret = .ok then d.world.2++[(i, d.zsd.payload)] else d.world.2⟩)

def recorded {ω : Type*} (entries : List (ZcborMapEntry ω)) :
    List (ZcborMapEntry (ω × List (Nat × Nat))) := entries.mapIdx ZcborMapEntry.recorded

@[simp] theorem length_recorded {ω : Type*} (entries : List (ZcborMapEntry ω)) :
    (recorded entries).length = entries.length := List.length_mapIdx

def Decoder.unrecorded {ω : Type*} (d : Decoder (ω × List (Nat × Nat))) : Decoder ω :=
  ⟨d.zsd, d.looked, d.world.1⟩

def MapLoop.unrecorded {ω : Type*} {entries : List (ZcborMapEntry ω)}
    (s : MapLoop (ω × List (Nat × Nat)) (recorded entries).length) : MapLoop ω entries.length :=
  ⟨s.decoder.unrecorded, s.key, s.pairs.map (Option.map (Fin.cast (length_recorded entries)))⟩

/- The callback returns 0 only where it has read a whole value. -/
def ZcborMapEntry.ReadsValue {ω : Type*} (lib : Zcbor) (entry : ZcborMapEntry ω) : Prop :=
  ∀ d d', entry.decode d = some (.ok, d') → lib.anySkip d.zsd = some d'.zsd

inductive MapFront (lib : Zcbor) (mem : Memory) : ZcborState → List PairKey → ZcborState → Prop where
  | nil {z : ZcborState} : MapFront lib mem z [] z
  | pair {z z' z'' u : ZcborState} {k : PairKey} {ks : List PairKey} (more : ¬ z.Ended mem)
      (key : mapKeyRead lib mem z = some (k, z')) (value : lib.anySkip z' = some z'')
      (rest : MapFront lib mem z'' ks u) : MapFront lib mem z (k :: ks) u

/- The entries that are found for keys read one after the other, with what earlier ones leave in
   the union. -/
def keysFound (mem : Memory) (keys : List EntryKey) : ZcborMapKey → List PairKey → List Nat
  | _, [] => []
  | key, k :: ks =>
    (keys.findIdx? fun entry => entryMatches mem entry (k.put key)).toList++
      keysFound mem keys (k.put key) ks

section
variable {ω : Type*} {lib : Zcbor} {mem : Memory} {entries : List (ZcborMapEntry ω)}
  {z u v : ZcborState} {ks : List PairKey} {k : PairKey} {key : ZcborMapKey}

theorem map_key_recorded (entries : List (ZcborMapEntry ω)) :
    (recorded entries).map ZcborMapEntry.key = entries.map ZcborMapEntry.key := by
  refine List.ext_getElem (by simp) fun i _ _ => ?_
  simp [recorded, ZcborMapEntry.recorded]

theorem get_recorded (entries : List (ZcborMapEntry ω)) (i : Fin (recorded entries).length) :
    (recorded entries).get i = (entries.get (i.cast (length_recorded entries))).recorded i := by
  rw [List.get_eq_getElem]
  exact List.getElem_mapIdx

theorem mapEntryGet_val (mem : Memory) (entries : List (ZcborMapEntry ω)) (key : ZcborMapKey) :
    (mapEntryGet mem entries key).toList.map Fin.val =
      ((entries.map ZcborMapEntry.key).findIdx? fun entry => entryMatches mem entry key).toList := by
  cases hget : mapEntryGet mem entries key with
  | none =>
    have hnone := Fin.find?_eq_none_iff.mp hget
    have hfind : ((entries.map ZcborMapEntry.key).findIdx? fun entry =>
        entryMatches mem entry key) = none := by
      rw [List.findIdx?_eq_none_iff, List.forall_mem_map]
      intro entry hentry
      obtain ⟨i, rfl⟩ := List.get_of_mem hentry
      exact hnone i
    rw [hfind]
    rfl
  | some i =>
    obtain ⟨hi, hbefore⟩ := Fin.find?_eq_some_iff.mp hget
    have hfind : ((entries.map ZcborMapEntry.key).findIdx? fun entry =>
        entryMatches mem entry key) = some (i : Nat) := by
      rw [List.findIdx?_eq_some_iff_getElem]
      refine ⟨by simp, by simpa using hi, fun j hj => ?_⟩
      simpa using hbefore ⟨j, hj.trans i.isLt⟩ hj
    rw [hfind]
    rfl

theorem mapEntryGet_recorded (mem : Memory) (entries : List (ZcborMapEntry ω)) (key : ZcborMapKey) :
    mapEntryGet mem entries key =
      (mapEntryGet mem (recorded entries) key).map (Fin.cast (length_recorded entries)) := by
  have hval : ∀ entry entry' : Option (Fin entries.length),
      entry.toList.map Fin.val = entry'.toList.map Fin.val → entry = entry' := by
    intro entry entry' h
    cases entry <;> cases entry' <;> simp_all [Fin.ext_iff]
  apply hval
  rw [mapEntryGet_val, ← map_key_recorded, ← mapEntryGet_val]
  cases mapEntryGet mem (recorded entries) key <;> rfl

theorem entryDecode_unrecorded (lib : Zcbor) (entry : Option (Fin (recorded entries).length))
    (d : Decoder (ω × List (Nat × Nat))) :
    entryDecode lib entries (entry.map (Fin.cast (length_recorded entries))) d.unrecorded =
      (entryDecode lib (recorded entries) entry d).map (Prod.map id Decoder.unrecorded) := by
  cases entry with
  | none =>
    simp only [entryDecode, Option.map_none, Decoder.unrecorded]
    cases lib.anySkip d.zsd <;> rfl
  | some i =>
    simp only [entryDecode, Option.map_some, get_recorded, ZcborMapEntry.recorded, Option.map_map]
    exact Option.map_id'.symm

theorem entryDecode_record {entry : Option (Fin (recorded entries).length)} {ret : DecodeRet}
    {d d' : Decoder (ω × List (Nat × Nat))}
    (h : entryDecode lib (recorded entries) entry d = some (ret, d')) :
    d'.world.2 = d.world.2++
      if ret = .ok then entry.toList.map fun i => (i.val, d.zsd.payload) else [] := by
  cases entry with
  | none =>
    simp only [entryDecode] at h
    split at h <;> cases h <;> simp
  | some i =>
    simp only [entryDecode, get_recorded] at h
    obtain ⟨⟨ret', e⟩, -, heq⟩ := Option.map_eq_some_iff.mp h
    simp only [Prod.mk.injEq] at heq
    obtain ⟨rfl, rfl⟩ := heq
    by_cases hok : ret' = .ok <;> simp [hok]

theorem MapLoop.numDecoded_unrecorded
    (s : MapLoop (ω × List (Nat × Nat)) (recorded entries).length) :
    s.unrecorded.numDecoded = s.numDecoded := by
  simp only [MapLoop.numDecoded, MapLoop.decoded, MapLoop.unrecorded, List.filterMap_map,
    Function.id_comp]
  rw [← List.length_map (f := Fin.cast (length_recorded entries)),
    List.map_filterMap]
  rfl

theorem mapDecodeStep_unrecorded (lib : Zcbor) (mem : Memory)
    (s : MapLoop (ω × List (Nat × Nat)) (recorded entries).length) :
    mapDecodeStep lib mem entries s.unrecorded = (mapDecodeStep lib mem (recorded entries) s).map
      (Sum.map MapLoop.unrecorded (Prod.map id MapLoop.unrecorded)) := by
  have hnum := s.numDecoded_unrecorded
  have hend : zcborListOrMapEnd mem s.unrecorded.decoder =
      Prod.map id Decoder.unrecorded (zcborListOrMapEnd mem s.decoder) := by
    show (if s.decoder.zsd.indefinite then _ else _) =
      Prod.map id Decoder.unrecorded (if s.decoder.zsd.indefinite then _ else _)
    cases s.decoder.zsd.indefinite <;> rfl
  obtain ⟨hzsd, -⟩ := zcborListOrMapEnd_zsd mem s.decoder
  simp only [mapDecodeStep, hnum, length_recorded, hend, Prod.map]
  split
  · cases (zcborListOrMapEnd mem s.decoder).1 with
    | true => rfl
    | false =>
      simp only [id_eq, Bool.false_eq_true, if_false, zcborMapKeyDecode_eq, Decoder.unrecorded]
      cases mapKeyRead lib mem (zcborListOrMapEnd mem s.decoder).2.zsd with
      | none => rfl
      | some pair =>
        obtain ⟨k, z⟩ := pair
        have hvalue := entryDecode_unrecorded lib
          (mapEntryGet mem (recorded entries) (k.put s.key))
          { (zcborListOrMapEnd mem s.decoder).2.look with zsd := z }
        rw [← mapEntryGet_recorded] at hvalue
        simp only [MapLoop.unrecorded, Decoder.unrecorded, Decoder.look] at hvalue ⊢
        rw [hvalue]
        cases entryDecode lib (recorded entries) (mapEntryGet mem (recorded entries) (k.put s.key)) _ with
        | none => rfl
        | some result =>
          obtain ⟨ret, d⟩ := result
          cases ret with
          | ok =>
            rw [mapEntryGet_recorded]
            simp [MapLoop.unrecorded, Decoder.unrecorded]
          | err e => rfl
  · rfl

/-- Keeping the record changes nothing. -/
theorem zcborMapDecode_unrecorded (lib : Zcbor) (mem : Memory) (entries : List (ZcborMapEntry ω))
    (fuel : Nat) (key : ZcborMapKey) (d : Decoder (ω × List (Nat × Nat))) :
    zcborMapDecode lib mem entries fuel key d.unrecorded =
      (zcborMapDecode lib mem (recorded entries) fuel key d).map
        (Prod.map id MapLoop.unrecorded) := by
  have hend : ∀ ret s, mapEndDecode lib entries ret (MapLoop.unrecorded s) =
      Prod.map id MapLoop.unrecorded (mapEndDecode lib (recorded entries) ret s) := by
    intro ret s
    simp only [mapEndDecode, MapLoop.unrecorded, Decoder.unrecorded]
    cases lib.listMapEndForceDecode s.decoder.zsd <;> rfl
  simp only [zcborMapDecode, Decoder.unrecorded]
  cases lib.mapStartDecode d.zsd with
  | none => rfl
  | some zsd =>
    have hrun : run (mapDecodeStep lib mem entries) fuel ⟨⟨zsd, d.looked, d.world.1⟩, key, []⟩ = _ :=
      run_map MapLoop.unrecorded (Prod.map id MapLoop.unrecorded)
        (fun s => mapDecodeStep_unrecorded lib mem s) fuel ⟨{ d with zsd }, key, []⟩
    dsimp only
    rw [hrun]
    cases run (mapDecodeStep lib mem (recorded entries)) fuel ⟨{ d with zsd }, key, []⟩ with
    | none => rfl
    | some result =>
      obtain ⟨e, s⟩ := result
      cases e with
      | some e => rfl
      | none =>
        simp only [Option.map_some, Prod.map, id_eq, s.numDecoded_unrecorded, length_recorded, hend]
        split_ifs <;> rfl

theorem MapFront.snoc {u' : ZcborState} (h : MapFront lib mem z ks u) (more : ¬ u.Ended mem)
    (hkey : mapKeyRead lib mem u = some (k, u')) (hvalue : lib.anySkip u' = some v) :
    MapFront lib mem z (ks++[k]) v := by
  induction h with
  | nil => exact .pair more hkey hvalue .nil
  | pair more' key value rest ih => exact .pair more' key value (ih more hkey)

theorem keysFound_append (mem : Memory) (keys : List EntryKey) (key : ZcborMapKey)
    (ks ks' : List PairKey) : keysFound mem keys key (ks++ks') =
      keysFound mem keys key ks++keysFound mem keys (ks.foldl PairKey.put key) ks' := by
  induction ks generalizing key with
  | nil => rfl
  | cons k ks ih => simp [keysFound, ih]

structure MapLoop.Recorded (lib : Zcbor) (mem : Memory) (entries : List (ZcborMapEntry ω))
    (key : ZcborMapKey) (zsd : ZcborState)
    (s : MapLoop (ω × List (Nat × Nat)) (recorded entries).length) (ks : List PairKey) : Prop where
  front : MapFront lib mem zsd ks s.decoder.zsd
  key_eq : s.key = ks.foldl PairKey.put key
  found : s.decoded.map Fin.val = keysFound mem (entries.map ZcborMapEntry.key) key ks
  record : s.decoder.world.2.map Prod.fst = s.decoded.map Fin.val

section
variable {zsd : ZcborState} {s t : MapLoop (ω × List (Nat × Nat)) (recorded entries).length}

theorem MapLoop.Recorded.step (hall : ∀ entry ∈ entries, entry.ReadsValue lib)
    (h : s.Recorded lib mem entries key zsd ks)
    (hstep : mapDecodeStep lib mem (recorded entries) s = some (.inl t)) :
    ∃ k, t.Recorded lib mem entries key zsd (ks++[k]) := by
  obtain ⟨next, d, d', hreads, hentry, rfl⟩ := mapDecodeStep_inl.mp hstep
  obtain ⟨k, hdue, rfl, hworld⟩ := hreads.keyRead
  have hfound := mapEntryGet_val mem (recorded entries) (k.put s.key)
  rw [map_key_recorded] at hfound
  have hrecord := entryDecode_record hentry
  have hskip : lib.anySkip d.zsd = some d'.zsd := by
    cases hget : mapEntryGet mem (recorded entries) (k.put s.key) with
    | none =>
      rw [hget] at hentry
      simp only [entryDecode] at hentry
      split at hentry
      · simp at hentry
      · next zsd' hskip =>
        cases hentry
        exact hskip
    | some i =>
      rw [hget] at hentry
      simp only [entryDecode, get_recorded] at hentry
      obtain ⟨⟨ret, e⟩, hdecode, heq⟩ := Option.map_eq_some_iff.mp hentry
      simp only [Prod.mk.injEq] at heq
      obtain ⟨rfl, rfl⟩ := heq
      exact hall _ (List.get_mem _ _) _ _ hdecode
  refine ⟨k, h.front.snoc hdue.more hdue.key hskip, ?_, ?_, ?_⟩
  · rw [List.foldl_append, ← h.key_eq]
    rfl
  · rw [MapLoop.decoded_concat, List.map_append, h.found, keysFound_append, ← h.key_eq, hfound]
    simp [keysFound]
  · simp only [hrecord, if_true, MapLoop.decoded_concat, List.map_append, List.map_map, hworld, h.record]
    rfl

theorem MapLoop.Recorded.comes (hall : ∀ entry ∈ entries, entry.ReadsValue lib)
    (h : s.Recorded lib mem entries key zsd ks)
    (hcomes : MapLoop.Comes lib mem (recorded entries) s t) :
    ∃ ks', t.Recorded lib mem entries key zsd ks' :=
  hcomes.invariant (P := fun s => ∃ ks, s.Recorded lib mem entries key zsd ks)
    (fun s t hs hstep => by
      obtain ⟨ks, hs⟩ := hs
      obtain ⟨k, ht⟩ := hs.step hall hstep
      exact ⟨ks++[k], ht⟩) ⟨ks, h⟩

end

/-- If callbacks accept what can be skipped, the loop comes through the pairs of a front part up
to where all has been found. -/
theorem MapFront.comes {entries : List (ZcborMapEntry ω)} (hlib : lib.Lawful mem)
    (haccept : ∀ entry ∈ entries, ∀ d zsd, lib.anySkip d.zsd = some zsd →
      ∃ d', entry.decode d = some (.ok, d') ∧ d'.zsd = zsd)
    (h : MapFront lib mem z ks u) (s : MapLoop ω entries.length) (hs : s.decoder.zsd = z)
    (hfound : s.numDecoded +
      (keysFound mem (entries.map ZcborMapEntry.key) s.key ks).length = entries.length) :
    ∃ t, MapLoop.Comes lib mem entries s t ∧ t.numDecoded = entries.length ∧
      t.decoder.zsd.backups = s.decoder.zsd.backups ∧ t.decoded.map Fin.val =
        s.decoded.map Fin.val++keysFound mem (entries.map ZcborMapEntry.key) s.key ks := by
  induction h generalizing s with
  | nil => exact ⟨s, .refl s, by simpa [keysFound] using hfound, rfl, by simp [keysFound]⟩
  | @pair z z' z'' u k ks more key value rest ih =>
    by_cases hwanted : s.numDecoded < entries.length
    · subst hs
      have hdue : PairDue lib mem entries.length s.numDecoded s.decoder.zsd k z' := ⟨hwanted, more, key⟩
      obtain ⟨d, hreads, rfl⟩ : ∃ d, s.Reads lib mem entries (k.put s.key) d ∧ d.zsd = z' :=
        ⟨_, hdue.reads, rfl⟩
      have hvalue : ∃ d', entryDecode lib entries (mapEntryGet mem entries (k.put s.key)) d =
          some (.ok, d') ∧ d'.zsd = z'' := by
        cases mapEntryGet mem entries (k.put s.key) with
        | none => exact ⟨{ d with zsd := z'' }, by simp only [entryDecode, value], rfl⟩
        | some i => exact haccept _ (List.get_mem entries i) d z'' value
      obtain ⟨d', hdecode, rfl⟩ := hvalue
      have hnumber := mapEntryGet_val mem entries (k.put s.key)
      have hone : (mapEntryGet mem entries (k.put s.key)).toList.length =
          ((entries.map ZcborMapEntry.key).findIdx? fun entry =>
            entryMatches mem entry (k.put s.key)).toList.length := by
        rw [← hnumber, List.length_map]
      obtain ⟨t, hcomes, hall, hbackups, hdecoded⟩ := ih
        ⟨d', k.put s.key, s.pairs++[mapEntryGet mem entries (k.put s.key)]⟩ rfl (by
          rw [MapLoop.numDecoded, MapLoop.decoded_concat, List.length_append, hone]
          simpa [keysFound, MapLoop.numDecoded, Nat.add_assoc] using hfound)
      refine ⟨t, .head (mapDecodeStep_inl.mpr ⟨_, d, d', hreads, hdecode, rfl⟩) hcomes, hall, ?_, ?_⟩
      · have hkey := (mapKeyRead_reads hlib key).same
        have hskip := (hlib.skip _ _ value).same
        rw [hbackups, hskip, hkey]
        rfl
      · rw [hdecoded, MapLoop.decoded_concat, List.map_append, hnumber]
        simp [keysFound]
    · -- enough has been found before, so nothing is found in the rest
      have hnil : (keysFound mem (entries.map ZcborMapEntry.key) s.key (k :: ks)).length = 0 := by
        omega
      rw [List.length_eq_zero_iff] at hnil
      refine ⟨s, .refl s, ?_, rfl, by rw [hnil, List.append_nil]⟩
      rw [hnil] at hfound
      simpa using hfound

end

end Pouch
