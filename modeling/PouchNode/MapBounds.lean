import PouchNode.MapOrder

/-! What is looked at in a map. zcbor_map_decode looks at bytes by itself, between calls of
zcbor, and so may its callbacks. What becomes of its input is said here by what zcbor reads of
it, and the code is shown to follow that. -/
namespace Pouch
open Loop

def Decoder.Within {ω : Type*} (d : Decoder ω) : Prop := ∀ a ∈ d.looked, a < d.zsd.payloadEnd

def ZcborState.Bounded (z : ZcborState) : Prop := z.payload ≤ z.payloadEnd
def ZcborState.Exhausted (z : ZcborState) : Prop := z.payload = z.payloadEnd

def ZcborState.left (z : ZcborState) : Nat := z.payloadEnd - z.payload

/- From one decoder to a later one: zcbor goes forward within the input, and the code looks past
   its end exactly if the input is cut. -/
structure Decoder.Goes {ω ψ : Type*} (d : Decoder ω) (d' : Decoder ψ) (cut : Prop) : Prop where
  payloadEnd : d'.zsd.payloadEnd = d.zsd.payloadEnd
  forward : d.zsd.payload ≤ d'.zsd.payload
  bounded : d'.zsd.Bounded
  within : d'.Within ↔ d.Within ∧ ¬ cut

section
variable {ω ψ χ : Type*} {d : Decoder ω} {d' : Decoder ψ} {d'' : Decoder χ} {p q : Prop}
  {z : ZcborState}

theorem Decoder.Goes.trans (h : d.Goes d' p) (h' : d'.Goes d'' q) : d.Goes d'' (p ∨ q) where
  payloadEnd := h'.payloadEnd.trans h.payloadEnd
  forward := h.forward.trans h'.forward
  bounded := h'.bounded
  within := by rw [h'.within, h.within, not_or, and_assoc]

theorem Decoder.Goes.congr (h : d.Goes d' p) (hpq : p ↔ q) : d.Goes d' q :=
  ⟨h.payloadEnd, h.forward, h.bounded, by rw [h.within, hpq]⟩

theorem Decoder.Goes.after (h : d.Goes d' False) (h' : d'.Goes d'' q) : d.Goes d'' q :=
  (h.trans h').congr (or_iff_right not_false)

theorem Decoder.Goes.before (h : d.Goes d' p) (h' : d'.Goes d'' False) : d.Goes d'' p :=
  (h.trans h').congr (or_iff_left not_false)

theorem Decoder.Goes.left_le (h : d.Goes d' p) : d'.zsd.left ≤ d.zsd.left := by
  have hforward := h.forward
  have hend := h.payloadEnd
  simp only [ZcborState.left]
  omega

theorem goes_zsd (world : ψ) (hend : z.payloadEnd = d.zsd.payloadEnd)
    (hforward : d.zsd.payload ≤ z.payload) (hbounded : z.Bounded) :
    d.Goes (⟨z, d.looked, world⟩ : Decoder ψ) False where
  payloadEnd := hend
  forward := hforward
  bounded := hbounded
  within := by simp only [Decoder.Within, hend, not_false_eq_true, and_true]

theorem goes_refl (world : ψ) (h : d.zsd.Bounded) :
    d.Goes (⟨d.zsd, d.looked, world⟩ : Decoder ψ) False :=
  goes_zsd world rfl le_rfl h

theorem ZcborState.Reads.payloadEnd {z z' : ZcborState} (h : z.Reads z') :
    z'.payloadEnd = z.payloadEnd := by
  rw [h.same]
  rfl

theorem ZcborState.Reads.left_lt {z z' : ZcborState} (h : z.Reads z') : z'.left < z.left := by
  have hforward := h.forward
  have hbounded := h.bounded
  simp only [ZcborState.left, h.payloadEnd]
  omega

theorem ZcborState.Reads.not_exhausted {z z' : ZcborState} (h : z.Reads z') : ¬ z.Exhausted :=
  Nat.ne_of_lt (Nat.lt_of_lt_of_le h.forward h.bounded)

theorem ZcborState.Opens.left_lt {z z' : ZcborState} (h : z.Opens z') : z'.left < z.left := by
  have hforward := h.forward
  have hbounded := h.bounded
  simp only [ZcborState.left, h.payloadEnd]
  omega

theorem goes_reads (world : ψ) (h : d.zsd.Reads z) :
    d.Goes (⟨z, d.looked, world⟩ : Decoder ψ) False :=
  goes_zsd world h.payloadEnd h.forward.le (h.bounded.trans h.payloadEnd.ge)

theorem goes_opens (world : ψ) (h : d.zsd.Opens z) :
    d.Goes (⟨z, d.looked, world⟩ : Decoder ψ) False :=
  goes_zsd world h.payloadEnd h.forward.le (h.bounded.trans h.payloadEnd.ge)

theorem look_within (d : Decoder ω) :
    d.look.Within ↔ d.Within ∧ d.zsd.payload < d.zsd.payloadEnd := by
  simp only [Decoder.Within, Decoder.look, List.forall_mem_append, List.forall_mem_singleton]

/-- A look is a look past the end exactly if the input is exhausted. -/
theorem goes_look (h : d.zsd.Bounded) : d.Goes d.look d.zsd.Exhausted where
  payloadEnd := rfl
  forward := le_rfl
  bounded := h
  within := by
    rw [look_within]
    exact and_congr_right fun _ => ⟨Nat.ne_of_lt, fun hne => Nat.lt_of_le_of_ne h hne⟩

theorem goes_listOrMapEnd (mem : Memory) (h : d.zsd.Bounded) :
    d.Goes (zcborListOrMapEnd mem d).2 (d.zsd.indefinite = true ∧ d.zsd.Exhausted) := by
  cases hindefinite : d.zsd.indefinite with
  | true =>
    simp only [zcborListOrMapEnd, hindefinite, if_true, true_and]
    exact goes_look h
  | false =>
    simp only [zcborListOrMapEnd, hindefinite, Bool.false_eq_true, if_false, false_and]
    exact goes_refl d.world h

end

abbrev Outcome (ω : Type*) := Option (ZcborState × ω)

structure Decoder.Follows {ω : Type*} (d d' : Decoder ω) (ok : Prop) (comes : Outcome ω → Prop) :
    Prop where
  goes : d.Goes d' (comes none)
  reads : ∀ z w, comes (some (z, w)) ↔ ok ∧ d'.zsd = z ∧ d'.world = w

section
variable {ω : Type*} {d d' d'' : Decoder ω} {ok p : Prop} {comes comes' : Outcome ω → Prop}

theorem Decoder.Goes.fails (h : d.Goes d' p) (hok : ¬ ok) (hcomes : ∀ o, comes o ↔ o = none ∧ p) :
    d.Follows d' ok comes where
  goes := h.congr (by simp [hcomes])
  reads z w := by simp [hcomes, hok]

theorem Decoder.Goes.follows (h : d.Goes d' p) (h' : d'.Follows d'' ok comes')
    (hcomes : ∀ o, comes o ↔ (o = none ∧ p) ∨ comes' o) : d.Follows d'' ok comes where
  goes := (h.trans h'.goes).congr (by simp [hcomes])
  reads z w := by simp [hcomes, h'.reads]

def Enclosed {ω : Type*} (start : ZcborState → Option ZcborState)
    (content : ZcborState → ω → Outcome ω → Prop) (stop : ZcborState → Option ZcborState)
    (z : ZcborState) (w : ω) (o : Outcome ω) : Prop :=
  ∃ zsd, start z = some zsd ∧ ((o = none ∧ content zsd w none) ∨
    ∃ z' z'' w', content zsd w (some (z', w')) ∧ stop z' = some z'' ∧ o = some (z'', w'))

section
variable {start stop : ZcborState → Option ZcborState} {content : ZcborState → ω → Outcome ω → Prop}
  {zsd : ZcborState} {ok' : Prop}

theorem not_enclosed (h : start d.zsd = none) (w : ω) (o : Outcome ω) :
    ¬ Enclosed start content stop d.zsd w o := by
  rintro ⟨zsd, hstart, -⟩
  cases h.symm.trans hstart

/-- The head is read, and behind the content so is the end. -/
theorem Decoder.Follows.enclosed (hstart : start d.zsd = some zsd)
    (hgoes : d.Goes { d with zsd } False)
    (hcontent : Decoder.Follows { d with zsd } d' ok (content zsd d.world))
    (hstop : d'.Goes d'' False) (hworld : d''.world = d'.world)
    (hok : ∀ z, ok' ∧ d''.zsd = z ↔ ok ∧ stop d'.zsd = some z) :
    d.Follows d'' ok' (Enclosed start content stop d.zsd d.world) where
  goes := by
    refine (hgoes.after (hcontent.goes.before hstop)).congr ?_
    simp [Enclosed, hstart]
  reads z w := by
    rw [← and_assoc, hok, hworld]
    simp only [Enclosed, hstart, Option.some.injEq, exists_eq_left', hcontent.reads, reduceCtorEq,
      false_and, false_or]
    constructor
    · rintro ⟨z', z'', w', ⟨hall, rfl, rfl⟩, hlast, heq⟩
      cases heq
      exact ⟨⟨hall, hlast⟩, rfl⟩
    · rintro ⟨⟨hall, hlast⟩, rfl⟩
      exact ⟨_, z, _, ⟨hall, rfl, rfl⟩, hlast, rfl⟩

end
end

section
variable (lib : Zcbor) (mem : Memory)

structure MapReader (ω : Type*) (n : Nat) where
  keys : Fin n → EntryKey
  value : Fin n → ZcborState → ω → Outcome ω → Prop

def MapReader.find {ω : Type*} {n : Nat} (r : MapReader ω n) (key : ZcborMapKey) : Option (Fin n) :=
  Fin.find? fun i => entryMatches mem (r.keys i) key

variable {ω : Type*} {n : Nat} (r : MapReader ω n)

def MapReader.pair (entry : Option (Fin n)) (z : ZcborState) (w : ω) (o : Outcome ω) : Prop :=
  match entry with
  | some i => r.value i z w o
  | none => ∃ z', lib.anySkip z = some z' ∧ o = some (z', w)

/- Pairs are read until none of the entries is missing. The input is cut if it ends where a pair
   or a break is due before that, or in the value of a pair. -/
inductive MapReads : ZcborMapKey → Nat → ZcborState → ω → Outcome ω → Prop where
  | full {key : ZcborMapKey} {decoded : Nat} {z : ZcborState} {w : ω} (all : n ≤ decoded) :
      MapReads key decoded z w (some (z, w))
  | due {key : ZcborMapKey} {decoded : Nat} {z : ZcborState} {w : ω} (wanted : decoded < n)
      (more : z.indefinite = true ∨ z.elemCount ≠ 0) (exhausted : z.Exhausted) :
      MapReads key decoded z w none
  | value {key : ZcborMapKey} {decoded : Nat} {z z' : ZcborState} {w : ω} {k : PairKey}
      (pair : PairDue lib mem n decoded z k z')
      (cut : r.pair lib (r.find mem (k.put key)) z' w none) : MapReads key decoded z w none
  | next {key : ZcborMapKey} {decoded : Nat} {z z' z'' : ZcborState} {w w' : ω} {k : PairKey}
      {o : Outcome ω} (pair : PairDue lib mem n decoded z k z')
      (value : r.pair lib (r.find mem (k.put key)) z' w (some (z'', w')))
      (rest : MapReads (k.put key) (decoded + (r.find mem (k.put key)).toList.length) z'' w' o) :
      MapReads key decoded z w o

def MapDecodes (key : ZcborMapKey) : ZcborState → ω → Outcome ω → Prop :=
  Enclosed lib.mapStartDecode (MapReads lib mem r key 0) lib.listMapEndForceDecode

end

section
variable {ω : Type*} {lib : Zcbor} {mem : Memory} {n decoded : Nat} {r : MapReader ω n}
  {key : ZcborMapKey} {z z' u : ZcborState} {w : ω} {k : PairKey} {o : Outcome ω}

theorem ZcborState.indefinite_or_of_not_ended (h : ¬ z.Ended mem) :
    z.indefinite = true ∨ z.elemCount ≠ 0 := by
  cases hindefinite : z.indefinite with
  | true => exact Or.inl rfl
  | false => exact Or.inr (by simpa [ZcborState.Ended, hindefinite] using h)

theorem ZcborState.Ended.indefinite_or_iff (h : z.Ended mem) :
    z.indefinite = true ∨ z.elemCount ≠ 0 ↔ z.indefinite = true := by
  cases hindefinite : z.indefinite with
  | true => simp
  | false => simpa [ZcborState.Ended, hindefinite] using h

theorem PairDue.unique {k' : PairKey} (h : PairDue lib mem n decoded z k z')
    (h' : PairDue lib mem n decoded z k' u) : k' = k ∧ u = z' := by
  have heq := h'.key.symm.trans h.key
  cases heq
  exact ⟨rfl, rfl⟩

theorem mapReads_full (hall : n ≤ decoded) :
    MapReads lib mem r key decoded z w o ↔ o = some (z, w) := by
  constructor
  · intro h
    cases h with
    | full => rfl
    | due wanted => exact absurd wanted (Nat.not_lt.mpr hall)
    | value pair => exact absurd pair.wanted (Nat.not_lt.mpr hall)
    | next pair => exact absurd pair.wanted (Nat.not_lt.mpr hall)
  · rintro rfl
    exact .full hall

theorem mapReads_no_pair (hwanted : decoded < n)
    (hnone : ∀ k z', ¬ PairDue lib mem n decoded z k z') :
    MapReads lib mem r key decoded z w o ↔
      o = none ∧ (z.indefinite = true ∨ z.elemCount ≠ 0) ∧ z.Exhausted := by
  constructor
  · intro h
    cases h with
    | full all => exact absurd hwanted (Nat.not_lt.mpr all)
    | due wanted more exhausted => exact ⟨rfl, more, exhausted⟩
    | value pair => exact absurd pair (hnone _ _)
    | next pair => exact absurd pair (hnone _ _)
  · rintro ⟨rfl, hmore, hexhausted⟩
    exact .due hwanted hmore hexhausted

theorem mapReads_pair (hlib : lib.Lawful mem) (h : PairDue lib mem n decoded z k z') :
    MapReads lib mem r key decoded z w o ↔
      (o = none ∧ r.pair lib (r.find mem (k.put key)) z' w none) ∨
      ∃ z'' w', r.pair lib (r.find mem (k.put key)) z' w (some (z'', w')) ∧
        MapReads lib mem r (k.put key) (decoded + (r.find mem (k.put key)).toList.length) z'' w' o := by
  constructor
  · intro hreads
    cases hreads with
    | full all => exact absurd h.wanted (Nat.not_lt.mpr all)
    | due _ _ exhausted => exact absurd exhausted (mapKeyRead_reads hlib h.key).not_exhausted
    | value pair cut =>
      obtain ⟨rfl, rfl⟩ := h.unique pair
      exact Or.inl ⟨rfl, cut⟩
    | next pair value rest =>
      obtain ⟨rfl, rfl⟩ := h.unique pair
      exact Or.inr ⟨_, _, value, rest⟩
  · rintro (⟨rfl, hcut⟩ | ⟨z'', w', hvalue, hrest⟩)
    · exact .value h hcut
    · exact .next h hvalue hrest

end

structure MapReader.Of {ω : Type*} (entries : List (ZcborMapEntry ω))
    (r : MapReader ω entries.length) (fuel : Nat) : Prop where
  keys : ∀ i, (entries.get i).key = r.keys i
  decode : ∀ i (d : Decoder ω), d.zsd.Bounded → d.zsd.left < fuel → ∃ ret d',
    (entries.get i).decode d = some (ret, d') ∧ d.Follows d' (ret = .ok) (r.value i d.zsd d.world)

section
variable {ω : Type*} {lib : Zcbor} {mem : Memory} {entries : List (ZcborMapEntry ω)}
  {r : MapReader ω entries.length} {fuel : Nat} {s : MapLoop ω entries.length}

theorem MapReader.Of.find (h : r.Of entries fuel) (key : ZcborMapKey) :
    mapEntryGet mem entries key = r.find mem key := by
  simp only [mapEntryGet, MapReader.find, h.keys]

def MapLoop.RunsTo (lib : Zcbor) (mem : Memory) (r : MapReader ω entries.length)
    (s : MapLoop ω entries.length) (result : Option DecodeErrno × MapLoop ω entries.length) : Prop :=
  s.decoder.Follows result.2.decoder (result.1 = none ∧ entries.length ≤ result.2.numDecoded)
    (MapReads lib mem r s.key s.numDecoded s.decoder.zsd s.decoder.world)

theorem mapDecodeStep_no_pair (hb : s.decoder.zsd.Bounded)
    (hwanted : s.numDecoded < entries.length)
    (hnone : ∀ k z', ¬ PairDue lib mem entries.length s.numDecoded s.decoder.zsd k z') :
    ∃ result, mapDecodeStep lib mem entries s = some (.inr result) ∧ s.RunsTo lib mem r result := by
  have hlist := goes_listOrMapEnd mem hb
  obtain ⟨hzsd, -⟩ := zcborListOrMapEnd_zsd mem s.decoder
  by_cases hended : s.decoder.zsd.Ended mem
  · have hfst := (zcborListOrMapEnd_fst mem s.decoder).mpr hended
    refine ⟨(none, { s with decoder := (zcborListOrMapEnd mem s.decoder).2 }), ?_, ?_⟩
    · simp only [mapDecodeStep, hwanted, if_true, hfst]
    · refine (hlist.congr ?_).fails (fun hok => absurd hwanted (Nat.not_lt.mpr hok.2))
        fun o => mapReads_no_pair hwanted hnone
      rw [hended.indefinite_or_iff]
  · have hfst := zcborListOrMapEnd_more hended
    have hkey : mapKeyRead lib mem s.decoder.zsd = none := by
      refine Option.eq_none_iff_forall_ne_some.mpr fun kz hkz => ?_
      exact hnone kz.1 kz.2 ⟨hwanted, hended, hkz⟩
    have hdecode := zcborMapKeyDecode_eq lib mem s.key (zcborListOrMapEnd mem s.decoder).2
    simp only [hzsd, hkey] at hdecode
    refine ⟨(some .ebadmsg, { s with decoder := (zcborListOrMapEnd mem s.decoder).2.look }), ?_, ?_⟩
    · simp only [mapDecodeStep, hwanted, if_true, hfst, Bool.false_eq_true, if_false, hdecode]
    · refine ((hlist.trans (goes_look (by rw [hzsd]; exact hb))).congr ?_).fails (by simp)
        fun o => mapReads_no_pair hwanted hnone
      rw [hzsd]
      have hmore := ZcborState.indefinite_or_of_not_ended hended
      tauto

/-- Where there is a pair, its key is read, and what the code looks at is there. -/
theorem exists_reads_of_pair (hlib : lib.Lawful mem) (hb : s.decoder.zsd.Bounded) {k : PairKey}
    {z : ZcborState} (h : PairDue lib mem entries.length s.numDecoded s.decoder.zsd k z) :
    ∃ d, s.Reads lib mem entries (k.put s.key) d ∧ d.zsd = z ∧ d.world = s.decoder.world ∧
      s.decoder.Goes d False := by
  obtain ⟨hzsd, hworld⟩ := zcborListOrMapEnd_zsd mem s.decoder
  have hreads := mapKeyRead_reads hlib h.key
  refine ⟨_, h.reads, rfl, hworld, ?_⟩
  have hlook := (goes_listOrMapEnd mem hb).trans (goes_look (by rw [hzsd]; exact hb))
  have hnot := hreads.not_exhausted
  refine (hlook.congr (q := False) ?_).after (goes_reads _ ?_)
  · rw [hzsd]
    tauto
  · show ZcborState.Reads (zcborListOrMapEnd mem s.decoder).2.zsd z
    rw [hzsd]
    exact hreads

theorem MapReader.Of.entryDecode (hlib : lib.Lawful mem) (hr : r.Of entries fuel)
    (entry : Option (Fin entries.length)) (d : Decoder ω) (hb : d.zsd.Bounded)
    (hleft : d.zsd.left < fuel) :
    ∃ ret d', Pouch.entryDecode lib entries entry d = some (ret, d') ∧
      d.Follows d' (ret = .ok) (r.pair lib entry d.zsd d.world) := by
  cases entry with
  | some i => exact hr.decode i d hb hleft
  | none =>
    simp only [Pouch.entryDecode]
    cases hskip : lib.anySkip d.zsd with
    | none =>
      refine ⟨_, d, rfl, (goes_refl d.world hb).fails (by simp) fun o => ?_⟩
      simp [MapReader.pair, hskip]
    | some z =>
      refine ⟨_, _, rfl, (goes_reads d.world (hlib.skip _ _ hskip)).congr ?_, fun u w => ?_⟩
      · simp [MapReader.pair]
      · simp [MapReader.pair, hskip, eq_comm]

theorem mapDecodeStep_runs (hlib : lib.Lawful mem) (hr : r.Of entries fuel)
    (hb : s.decoder.zsd.Bounded) (hfuel : s.decoder.zsd.left < fuel) :
    (∃ result, mapDecodeStep lib mem entries s = some (.inr result) ∧ s.RunsTo lib mem r result) ∨
    ∃ t, mapDecodeStep lib mem entries s = some (.inl t) ∧
      (t.decoder.zsd.Bounded ∧ t.decoder.zsd.left < fuel) ∧
      t.decoder.zsd.left < s.decoder.zsd.left ∧
      ∀ result, t.RunsTo lib mem r result → s.RunsTo lib mem r result := by
  by_cases hwanted : s.numDecoded < entries.length
  · by_cases hpair : ∃ k z, PairDue lib mem entries.length s.numDecoded s.decoder.zsd k z
    · obtain ⟨k, z, hpair⟩ := hpair
      obtain ⟨d, hreads, rfl, hworld, hgoes⟩ := exists_reads_of_pair hlib hb hpair
      have hlt := (mapKeyRead_reads hlib hpair.key).left_lt
      obtain ⟨ret, d', hdecode, hfollows⟩ :=
        hr.entryDecode hlib (r.find mem (k.put s.key)) d hgoes.bounded (by omega)
      have hle := hfollows.goes.left_le
      cases ret with
      | err e =>
        refine Or.inl ⟨(some e, ⟨d', k.put s.key, s.pairs⟩), ?_, ?_⟩
        · simp only [mapDecodeStep, hwanted, if_true, hreads.more, Bool.false_eq_true, if_false,
            hreads.decoded, hr.find, hdecode]
        · refine (hgoes.after hfollows.goes).fails (by simp) fun o => ?_
          simp [mapReads_pair hlib hpair, ← hworld, hfollows.reads]
      | ok =>
        refine Or.inr ⟨⟨d', k.put s.key, s.pairs++[r.find mem (k.put s.key)]⟩, ?_,
          ⟨hfollows.goes.bounded, by simp only; omega⟩, by simp only; omega, ?_⟩
        · rw [mapDecodeStep_inl]
          exact ⟨_, d, d', hreads, by rw [hr.find]; exact hdecode, by rw [hr.find]⟩
        · intro result hresult
          refine (hgoes.after hfollows.goes).follows hresult fun o => ?_
          simp [mapReads_pair hlib hpair, ← hworld, hfollows.reads, MapLoop.numDecoded_concat]
    · push Not at hpair
      exact Or.inl (mapDecodeStep_no_pair hb hwanted hpair)
  · have hall := Nat.not_lt.mp hwanted
    refine Or.inl ⟨(none, s), mapDecodeStep_enough hall, goes_refl s.decoder.world hb |>.congr ?_, ?_⟩
    · simp [mapReads_full hall]
    · intro z w
      rw [mapReads_full hall]
      simp [hall, eq_comm]

theorem mapEndDecode_goes (hlib : lib.Lawful mem) (ret : DecodeRet) (hb : s.decoder.zsd.Bounded) :
    s.decoder.Goes (mapEndDecode lib entries ret s).2.decoder False := by
  unfold mapEndDecode
  split
  · exact goes_refl s.decoder.world hb
  · next zsd hforce =>
    obtain ⟨elemCount, indefinite, -, heq⟩ := hlib.forceEnd _ _ hforce
    refine goes_zsd s.decoder.world ?_ ?_ ?_
    · rw [heq]
    · rw [heq]
    · rw [heq]
      exact hb

theorem mapEndDecode_ok (lib : Zcbor) (ret : DecodeRet) (s : MapLoop ω entries.length) (z : ZcborState) :
    (mapEndDecode lib entries ret s).1 = .ok ∧ (mapEndDecode lib entries ret s).2.decoder.zsd = z ↔
      ret = .ok ∧ lib.listMapEndForceDecode s.decoder.zsd = some z := by
  unfold mapEndDecode
  cases lib.listMapEndForceDecode s.decoder.zsd <;> simp

theorem mapEndDecode_world (lib : Zcbor) (ret : DecodeRet) (s : MapLoop ω entries.length) :
    (mapEndDecode lib entries ret s).2.decoder.world = s.decoder.world := by
  unfold mapEndDecode
  split <;> rfl

/-- The loop ends, and it goes as the reading of pairs goes. -/
theorem mapDecode_run (hlib : lib.Lawful mem) (hr : r.Of entries fuel) (key : ZcborMapKey) (d : Decoder ω)
    (hb : d.zsd.Bounded) (hleft : d.zsd.left < fuel) :
    ∃ e s, run (mapDecodeStep lib mem entries) fuel ⟨d, key, []⟩ = some (e, s) ∧
      d.Follows s.decoder (e = none ∧ entries.length ≤ s.numDecoded)
        (MapReads lib mem r key 0 d.zsd d.world) := by
  obtain ⟨⟨e, s⟩, hrun, hresult⟩ := run_of_measure
    (I := fun s => s.decoder.zsd.Bounded ∧ s.decoder.zsd.left < fuel)
    (P := fun s result => s.RunsTo lib mem r result)
    (fun s : MapLoop ω entries.length => s.decoder.zsd.left)
    (fun s hs => mapDecodeStep_runs hlib hr hs.1 hs.2) ⟨d, key, []⟩ ⟨hb, hleft⟩ fuel hleft
  exact ⟨e, s, hrun, hresult⟩

/-- zcbor_map_decode returns an error unless all is there and the end can be forced. -/
theorem zcborMapDecode_of_run {key : ZcborMapKey} {d : Decoder ω} {zsd : ZcborState}
    {e : Option DecodeErrno} (hlib : lib.Lawful mem) (hpos : 0 < entries.length)
    (hstart : lib.mapStartDecode d.zsd = some zsd)
    (hrun : run (mapDecodeStep lib mem entries) fuel ⟨{ d with zsd }, key, []⟩ = some (e, s))
    (hb : s.decoder.zsd.Bounded) :
    ∃ ret t, zcborMapDecode lib mem entries fuel key d = some (ret, t) ∧
      s.decoder.Goes t.decoder False ∧ t.decoder.world = s.decoder.world ∧
      ∀ z, (ret = .ok ∧ t.decoder.zsd = z ↔ (e = none ∧ entries.length ≤ s.numDecoded) ∧
        lib.listMapEndForceDecode s.decoder.zsd = some z) := by
  have hrefl := goes_refl s.decoder.world hb
  have hend : ∀ ret, s.decoder.Goes (mapEndDecode lib entries ret s).2.decoder False :=
    fun ret => mapEndDecode_goes hlib ret hb
  simp only [zcborMapDecode, hstart, hrun]
  cases e with
  | some e => exact ⟨_, s, rfl, hrefl, rfl, by simp⟩
  | none =>
    by_cases hzero : s.numDecoded = 0
    · simp only [hzero, if_true]
      refine ⟨(mapEndDecode lib entries (.err .enoent) s).1,
        (mapEndDecode lib entries (.err .enoent) s).2, rfl, hend _, mapEndDecode_world lib _ s,
        fun z => ?_⟩
      rw [mapEndDecode_ok]
      simp [Nat.ne_of_gt hpos]
    · simp only [hzero, if_false]
      by_cases hfew : s.numDecoded < entries.length
      · simp only [hfew, if_true]
        exact ⟨_, s, rfl, hrefl, rfl, by simp [hfew]⟩
      · simp only [hfew, if_false]
        refine ⟨(mapEndDecode lib entries .ok s).1, (mapEndDecode lib entries .ok s).2, rfl, hend _,
          mapEndDecode_world lib _ s, fun z => ?_⟩
        rw [mapEndDecode_ok]
        simp [Nat.not_lt.mp hfew]

/-- The whole of zcbor_map_decode. It returns, and it goes as the reading of a map goes. -/
theorem zcborMapDecode_follows (hlib : lib.Lawful mem) (hr : r.Of entries fuel) (hpos : 0 < entries.length)
    (key : ZcborMapKey) (d : Decoder ω) (hb : d.zsd.Bounded) (hleft : d.zsd.left < fuel) :
    ∃ ret s, zcborMapDecode lib mem entries fuel key d = some (ret, s) ∧
      d.Follows s.decoder (ret = .ok) (MapDecodes lib mem r key d.zsd d.world) ∧
      (ret = .ok → s.decoder.zsd.left < d.zsd.left) := by
  cases hstart : lib.mapStartDecode d.zsd with
  | none =>
    refine ⟨.err .ebadmsg, ⟨d, key, []⟩, by simp only [zcborMapDecode, hstart], ?_, by simp⟩
    refine (goes_refl d.world hb).fails (by simp) fun o => ?_
    simp [MapDecodes, not_enclosed hstart]
  | some zsd =>
    obtain ⟨hopens, -⟩ := hlib.mapStart _ _ hstart
    have hgoes := goes_opens d.world hopens
    have hlt := hopens.left_lt
    obtain ⟨e, s, hrun, hfollows⟩ := mapDecode_run hlib hr key { d with zsd } hgoes.bounded
      (Nat.lt_trans hlt hleft)
    obtain ⟨ret, t, hdecode, hend, hworld, hok⟩ :=
      zcborMapDecode_of_run hlib hpos hstart hrun hfollows.goes.bounded
    have hle := (hfollows.goes.before hend).left_le
    exact ⟨ret, t, hdecode, hfollows.enclosed hstart hgoes hend hworld hok,
      fun _ => Nat.lt_of_le_of_lt hle hlt⟩

end

def Quiet {ω : Type*} (decode : Decoder ω → Option (DecodeRet × Decoder ω)) : Prop :=
  ∀ z w, ∃ ret z' w', (z' = z ∨ z.Reads z') ∧
    ∀ looked, decode ⟨z, looked, w⟩ = some (ret, ⟨z', looked, w'⟩)

def ReadsQuietly {ω : Type*} (decode : Decoder ω → Option (DecodeRet × Decoder ω)) (z : ZcborState)
    (w : ω) (o : Outcome ω) : Prop :=
  ∃ z' w', decode ⟨z, [], w⟩ = some (.ok, ⟨z', [], w'⟩) ∧ o = some (z', w')

section
variable {ω : Type*} {decode : Decoder ω → Option (DecodeRet × Decoder ω)}

theorem Quiet.follows (h : Quiet decode) (d : Decoder ω) (hb : d.zsd.Bounded) :
    ∃ ret d', decode d = some (ret, d') ∧
      d.Follows d' (ret = .ok) (ReadsQuietly decode d.zsd d.world) := by
  obtain ⟨ret, z, w, hz, hdecode⟩ := h d.zsd d.world
  have hgoes : d.Goes ⟨z, d.looked, w⟩ False := by
    cases hz with
    | inl heq =>
      rw [heq]
      exact goes_refl w hb
    | inr hreads => exact goes_reads w hreads
  refine ⟨ret, ⟨z, d.looked, w⟩, hdecode d.looked, hgoes.congr ?_, fun u v => ?_⟩
  · simp [ReadsQuietly]
  · simp only [ReadsQuietly, hdecode [], Option.some.injEq, Prod.mk.injEq, Decoder.mk.injEq, true_and]
    constructor
    · rintro ⟨z', w', ⟨hret, rfl, rfl⟩, rfl, rfl⟩
      exact ⟨hret, rfl, rfl⟩
    · rintro ⟨hret, rfl, rfl⟩
      exact ⟨z, w, ⟨hret, rfl, rfl⟩, rfl, rfl⟩

theorem quiet_mapValueDecode {β : Type*} {decode : ZcborState → Option (β × ZcborState)}
    (hreads : ∀ z b z', decode z = some (b, z') → z.Reads z') (store : β → ω → ω) :
    Quiet fun d => some (mapValueDecode decode store d) := by
  intro z w
  cases hvalue : decode z with
  | none => exact ⟨.err .ebadmsg, z, w, Or.inl rfl, fun looked => by simp only [mapValueDecode, hvalue]⟩
  | some pair =>
    obtain ⟨b, z'⟩ := pair
    refine ⟨.ok, z', store b w, Or.inr (hreads _ _ _ hvalue), fun looked => ?_⟩
    simp only [mapValueDecode, hvalue]

end
end Pouch
