import PouchNode.ZcborMap

/-! Maps as they lie in memory: pairs one behind the other, each for a requested entry or with
a key that is not requested. What zcbor_map_decode does with them depends on their
order only in where it stops. -/
namespace Pouch
open Loop

structure ZcborState.At (z : ZcborState) (address payloadEnd : Nat) : Prop where
  payload : z.payload = address
  payloadEnd : z.payloadEnd = payloadEnd
  elemCount : z.elemCount ≠ 0

structure MapPair (n : Nat) where
  entry : Option (Fin n)
  key : PairKey
  start : Nat
  value : Nat
  stop : Nat

section
variable {ω : Type*} (lib : Zcbor) (mem : Memory) (payloadEnd : Nat)

def PairKey.LiesAt (start value : Nat) : PairKey → Prop
  | .u32 k => zcborMajorType (mem start) = .pint ∧
      ∀ z, z.At start payloadEnd → lib.uint32Decode z = some (k, z.readTo value)
  | .tstr text => zcborMajorType (mem start) = .tstr ∧
      ∀ z, z.At start payloadEnd → lib.tstrDecode z = some (text, z.readTo value)
  | .otherInt => zcborMajorType (mem start) = .nint ∨ (zcborMajorType (mem start) = .pint ∧
      ∀ z, z.At start payloadEnd → lib.uint32Decode z = none)

variable (entries : List (ZcborMapEntry ω)) (effect : Fin entries.length → ω → ω → Prop)

/- A requested pair has a value that its callback accepts, with an effect on what it writes to;
   any other one has a key that no entry asks for, and a well-formed value. -/
structure MapPair.Lies (p : MapPair entries.length) : Prop where
  forward : p.start < p.stop
  key : p.key.LiesAt lib mem payloadEnd p.start p.value
  requested : ∀ i, p.entry = some i → p.key.For mem (entries.get i).key
  accepted : ∀ i d, p.entry = some i → d.zsd.At p.value payloadEnd →
    ∃ looked world, effect i d.world world ∧
      (entries.get i).decode d = some (.ok, ⟨d.zsd.readTo p.stop, looked, world⟩)
  unknown : p.entry = none → ∀ i, ¬ p.key.For mem (entries.get i).key
  skipped : ∀ z, p.entry = none → z.At p.value payloadEnd → lib.anySkip z = some (z.readTo p.stop)

def Chain {n : Nat} : Nat → List (MapPair n) → Nat → Prop
  | address, [], after => address = after
  | address, p :: pairs, after => p.start = address ∧ Chain p.stop pairs after

def Recognised : ZcborMapKey → List (MapPair entries.length) → Prop
  | _, [] => True
  | key, p :: pairs => mapEntryGet mem entries (p.key.put key) = p.entry ∧
      Recognised (p.key.put key) pairs

def PairEffect {n : Nat} (effect : Fin n → ω → ω → Prop) : Option (Fin n) → ω → ω → Prop
  | none, w, w' => w' = w
  | some i, w, w' => effect i w w'

def Effects {n : Nat} (effect : Fin n → ω → ω → Prop) : List (MapPair n) → ω → ω → Prop
  | [], w, w' => w' = w
  | p :: pairs, w, w' => ∃ v, PairEffect effect p.entry w v ∧ Effects effect pairs v w'

structure MapLoop.Before (s : MapLoop ω entries.length) (pairs : List (MapPair entries.length))
    (after : Nat) : Prop where
  chain : Chain s.decoder.zsd.payload pairs after
  bound : s.decoder.zsd.payloadEnd = payloadEnd
  count : 2*pairs.length ≤ s.decoder.zsd.elemCount
  lies : ∀ p ∈ pairs, p.Lies lib mem payloadEnd entries effect

structure ZcborState.SameContext (z z' : ZcborState) : Prop where
  payloadEnd : z'.payloadEnd = z.payloadEnd
  indefinite : z'.indefinite = z.indefinite
  backups : z'.backups = z.backups
  numBackups : z'.numBackups = z.numBackups

end

section
variable {ω : Type*} {lib : Zcbor} {mem : Memory} {entries : List (ZcborMapEntry ω)}
  {effect : Fin entries.length → ω → ω → Prop} {payloadEnd after : Nat}
  {s t : MapLoop ω entries.length} {p : MapPair entries.length}
  {pairs : List (MapPair entries.length)}

/-- A byte that starts an item other than a simple value does not end a container. -/
theorem zcborListOrMapEnd_false (d : Decoder ω)
    (hcount : d.zsd.elemCount ≠ 0) (htype : zcborMajorType (mem d.zsd.payload) ≠ .simple) :
    (zcborListOrMapEnd mem d).1 = false := by
  unfold zcborListOrMapEnd
  split
  · refine decide_eq_false fun hbreak => htype ?_
    rw [hbreak]
    rfl
  · exact decide_eq_false hcount

theorem PairKey.LiesAt.not_simple {key : PairKey} {start value : Nat}
    (h : key.LiesAt lib mem payloadEnd start value) : zcborMajorType (mem start) ≠ .simple ∧
      zcborMajorType (mem start) ≠ .map := by
  cases key with
  | u32 k => simp [h.1]
  | tstr text => simp [h.1]
  | otherInt =>
    cases h with
    | inl hnint => simp [hnint]
    | inr hpint => simp [hpint.1]

theorem keyDecode_of_lies {key : PairKey} {start value : Nat}
    (h : key.LiesAt lib mem payloadEnd start value) (hkey : key ≠ .otherInt) (union : ZcborMapKey)
    (d : Decoder ω) (hat : d.zsd.At start payloadEnd) :
    ∃ looked, zcborMapKeyDecode lib mem union d =
      (.ok (key.put union), ⟨d.zsd.readTo value, looked, d.world⟩) := by
  cases key with
  | u32 k =>
    obtain ⟨htype, hdecode⟩ := h
    simp only [zcborMapKeyDecode, hat.payload, htype, hdecode d.zsd hat]
    exact ⟨_, rfl⟩
  | tstr text =>
    obtain ⟨htype, hdecode⟩ := h
    simp only [zcborMapKeyDecode, hat.payload, htype, hdecode d.zsd hat]
    exact ⟨_, rfl⟩
  | otherInt => exact absurd rfl hkey

theorem keyDecode_otherInt {start value : Nat}
    (h : PairKey.otherInt.LiesAt lib mem payloadEnd start value) (union : ZcborMapKey)
    (d : Decoder ω) (hat : d.zsd.At start payloadEnd) :
    zcborMapKeyDecode lib mem union d = (.error .ebadmsg, d.look) := by
  cases h with
  | inl hnint => simp only [zcborMapKeyDecode, hat.payload, hnint]
  | inr hpint => simp only [zcborMapKeyDecode, hat.payload, hpint.1, hpint.2 d.zsd hat]

theorem MapPair.Lies.entryDecode (h : p.Lies lib mem payloadEnd entries effect) (d : Decoder ω)
    (hat : d.zsd.At p.value payloadEnd) :
    ∃ looked world, PairEffect effect p.entry d.world world ∧
      Pouch.entryDecode lib entries p.entry d =
        some (.ok, ⟨d.zsd.readTo p.stop, looked, world⟩) := by
  cases hentry : p.entry with
  | none =>
    refine ⟨d.looked, d.world, rfl, ?_⟩
    simp only [Pouch.entryDecode, h.skipped d.zsd hentry hat]
  | some i =>
    obtain ⟨looked, world, heffect, hdecode⟩ := h.accepted i d hentry hat
    exact ⟨looked, world, heffect, hdecode⟩

theorem MapLoop.Before.at (h : s.Before lib mem payloadEnd entries effect (p :: pairs) after) :
    s.decoder.zsd.At p.start payloadEnd :=
  ⟨h.chain.1.symm, h.bound, by
    have hcount := h.count
    rw [List.length_cons] at hcount
    omega⟩

theorem MapLoop.Before.more (h : s.Before lib mem payloadEnd entries effect (p :: pairs) after) :
    (zcborListOrMapEnd mem s.decoder).1 = false := by
  have hp := h.lies p List.mem_cons_self
  refine zcborListOrMapEnd_false s.decoder h.at.elemCount ?_
  rw [h.at.payload]
  exact hp.key.not_simple.1

/-- A pair that is recognised is read, and the loop goes on behind it. -/
theorem MapLoop.Before.step (h : s.Before lib mem payloadEnd entries effect (p :: pairs) after)
    (hwanted : s.numDecoded < entries.length) (hkey : p.key ≠ .otherInt)
    (hentry : mapEntryGet mem entries (p.key.put s.key) = p.entry) :
    ∃ t, mapDecodeStep lib mem entries s = some (.inl t) ∧
      t.Before lib mem payloadEnd entries effect pairs after ∧ t.key = p.key.put s.key ∧
      t.pairs = s.pairs++[p.entry] ∧ s.decoder.zsd.SameContext t.decoder.zsd ∧
      PairEffect effect p.entry s.decoder.world t.decoder.world := by
  have hp := h.lies p List.mem_cons_self
  have hcount := h.count
  rw [List.length_cons] at hcount
  obtain ⟨hzsd, hworld⟩ := zcborListOrMapEnd_zsd mem s.decoder
  obtain ⟨looked, hdecoded⟩ := keyDecode_of_lies hp.key hkey s.key
    (zcborListOrMapEnd mem s.decoder).2 (by rw [hzsd]; exact h.at)
  rw [hzsd, hworld] at hdecoded
  obtain ⟨looked', world, heffect, hvalue⟩ := hp.entryDecode
    ⟨s.decoder.zsd.readTo p.value, looked, s.decoder.world⟩
    ⟨rfl, h.bound, by simp only [ZcborState.readTo]; omega⟩
  refine ⟨⟨⟨(s.decoder.zsd.readTo p.value).readTo p.stop, looked', world⟩, p.key.put s.key,
    s.pairs++[p.entry]⟩, ?_, ?_, rfl, rfl, ⟨rfl, rfl, rfl, rfl⟩, heffect⟩
  · rw [mapDecodeStep_inl]
    exact ⟨_, _, _, ⟨hwanted, h.more, hdecoded⟩, by rw [hentry]; exact hvalue, by rw [hentry]⟩
  · refine ⟨h.chain.2, h.bound, ?_, fun q hq => h.lies q (List.mem_cons_of_mem _ hq)⟩
    simp only [ZcborState.readTo]
    omega

/-- Another integer ends the loop with an error. -/
theorem MapLoop.Before.step_otherInt (h : s.Before lib mem payloadEnd entries effect (p :: pairs) after)
    (hwanted : s.numDecoded < entries.length) (hkey : p.key = .otherInt) :
    ∃ t, mapDecodeStep lib mem entries s = some (.inr (some .ebadmsg, t)) := by
  have hp := h.lies p List.mem_cons_self
  have hlies := hp.key
  rw [hkey] at hlies
  have hdecoded := keyDecode_otherInt hlies s.key (zcborListOrMapEnd mem s.decoder).2
    (by rw [(zcborListOrMapEnd_zsd mem s.decoder).1]; exact h.at)
  simp only [mapDecodeStep, hwanted, if_true, h.more, Bool.false_eq_true, if_false, hdecoded]
  exact ⟨_, rfl⟩

theorem MapLoop.Comes.pairs_extend (h : MapLoop.Comes lib mem entries s t) : s.pairs <+: t.pairs := by
  induction h with
  | refl s => exact List.prefix_rfl
  | head first rest ih =>
    obtain ⟨key, d, d', -, -, rfl⟩ := mapDecodeStep_inl.mp first
    exact (List.prefix_append _ _).trans ih

theorem MapLoop.numDecoded_snoc (h : t.pairs = s.pairs++[p.entry]) :
    t.numDecoded = s.numDecoded + ([p].filterMap MapPair.entry).length := by
  cases hentry : p.entry <;> simp [MapLoop.numDecoded, MapLoop.decoded, h, hentry]

/-- Pairs that are recognised are read one after the other, as long as entries are missing
before the last of them. -/
theorem MapLoop.Before.comes {rest : List (MapPair entries.length)}
    (h : s.Before lib mem payloadEnd entries effect (pairs++rest) after)
    (hkeys : ∀ p ∈ pairs, p.key ≠ .otherInt) (hentries : Recognised mem entries s.key pairs)
    (hwanted : pairs ≠ [] →
      s.numDecoded + (pairs.dropLast.filterMap MapPair.entry).length < entries.length) :
    ∃ t, MapLoop.Comes lib mem entries s t ∧ t.Before lib mem payloadEnd entries effect rest after ∧
      t.pairs = s.pairs++pairs.map MapPair.entry ∧ s.decoder.zsd.SameContext t.decoder.zsd ∧
      Effects effect pairs s.decoder.world t.decoder.world := by
  induction pairs generalizing s with
  | nil => exact ⟨s, .refl s, h, by simp, ⟨rfl, rfl, rfl, rfl⟩, rfl⟩
  | cons p pairs ih =>
    have hfirst := hwanted (List.cons_ne_nil _ _)
    obtain ⟨t, hstep, hbefore, hkey, hpairs, hcontext, heffect⟩ :=
      h.step (by omega) (hkeys p List.mem_cons_self) hentries.1
    have hrest : pairs ≠ [] →
        t.numDecoded + (pairs.dropLast.filterMap MapPair.entry).length < entries.length := by
      intro hne
      rw [List.dropLast_cons_of_ne_nil hne, ← List.singleton_append, List.filterMap_append,
        List.length_append] at hfirst
      rw [MapLoop.numDecoded_snoc hpairs]
      omega
    obtain ⟨u, hcomes, hafter, hall, hcontext', heffects⟩ := ih hbefore
      (fun q hq => hkeys q (List.mem_cons_of_mem _ hq)) (by rw [hkey]; exact hentries.2) hrest
    refine ⟨u, .head hstep hcomes, hafter, ?_, ?_, t.decoder.world, heffect, heffects⟩
    · rw [hall, hpairs, List.map_cons, List.append_assoc, List.singleton_append]
    · exact ⟨hcontext'.payloadEnd.trans hcontext.payloadEnd,
        hcontext'.indefinite.trans hcontext.indefinite, hcontext'.backups.trans hcontext.backups,
        hcontext'.numBackups.trans hcontext.numBackups⟩

/-- If the loop has been through all pairs, each for its entry, and has decoded what is
requested only then, they were recognised, and the last of them is requested. -/
theorem MapLoop.Before.of_comes (h : s.Before lib mem payloadEnd entries effect pairs after)
    (hcomes : MapLoop.Comes lib mem entries s t)
    (hpairs : t.pairs = s.pairs++pairs.map MapPair.entry)
    (hall : t.numDecoded = entries.length) :
    (∀ p ∈ pairs, p.key ≠ .otherInt) ∧ Recognised mem entries s.key pairs ∧
      ∀ p, pairs.getLast? = some p → p.entry ≠ none := by
  induction pairs generalizing s with
  | nil => exact ⟨by simp, trivial, by simp⟩
  | cons p pairs ih =>
    cases hcomes with
    | refl s => simp at hpairs
    | @head _ u _ first rest =>
      obtain ⟨key, d, d', hreads, -, rfl⟩ := mapDecodeStep_inl.mp first
      -- the key is decoded, so it is not another integer, and it is the key of the pair
      have hkey : p.key ≠ .otherInt := by
        intro hother
        obtain ⟨u, hstep⟩ := h.step_otherInt hreads.wanted hother
        rw [first] at hstep
        cases hstep
      have hput : key = p.key.put s.key := by
        obtain ⟨looked, hdecoded⟩ := keyDecode_of_lies (h.lies p List.mem_cons_self).key hkey s.key
          (zcborListOrMapEnd mem s.decoder).2
          (by rw [(zcborListOrMapEnd_zsd mem s.decoder).1]; exact h.at)
        rw [hreads.decoded] at hdecoded
        cases hdecoded
        rfl
      have hentry : mapEntryGet mem entries (p.key.put s.key) = p.entry := by
        have hstays := MapLoop.Comes.pairs_extend rest
        simp only [hpairs, List.map_cons, List.prefix_append_right_inj, List.singleton_prefix_cons_iff,
          hput] at hstays
        exact hstays
      obtain ⟨v, hstep, hbefore, hvkey, hvpairs, -⟩ := h.step hreads.wanted hkey hentry
      rw [first] at hstep
      obtain rfl := Sum.inl.inj (Option.some.inj hstep)
      obtain ⟨hkeys, hrecognised, hlast⟩ := ih hbefore rest (by
        rw [hpairs, hvpairs, List.map_cons, List.append_assoc, List.singleton_append])
      refine ⟨List.forall_mem_cons.mpr ⟨hkey, hkeys⟩, ⟨hentry, hvkey ▸ hrecognised⟩, ?_⟩
      intro q hq hnone
      cases pairs with
      | cons r pairs => exact hlast q (by simpa using hq) hnone
      | nil =>
        -- nothing was decoded with the last pair, so enough had been before
        obtain rfl : p = q := by simpa using hq
        have hfull : s.numDecoded = entries.length := by
          refine Eq.trans ?_ hall
          simp [MapLoop.numDecoded, MapLoop.decoded, hpairs, hnone]
        exact absurd hreads.wanted (by omega)

theorem requested_dropLast (hlast : ∀ p, pairs.getLast? = some p → p.entry ≠ none)
    (hne : pairs ≠ []) :
    (pairs.dropLast.filterMap MapPair.entry).length + 1 =
      (pairs.filterMap MapPair.entry).length := by
  obtain ⟨i, hi⟩ := Option.ne_none_iff_exists'.mp
    (hlast (pairs.getLast hne) (List.getLast?_eq_some_getLast hne))
  conv_rhs => rw [← List.dropLast_append_getLast hne, List.filterMap_append, List.length_append]
  simp [hi]

section
variable {key : ZcborMapKey} {d : Decoder ω} {zsd : ZcborState}

/-- A map is decoded if its pairs are recognised up to the last one that is requested, and the
decoder is left behind that one. -/
theorem zcborMapDecode_front {rest : List (MapPair entries.length)} (hlib : lib.Lawful mem)
    (hstart : lib.mapStartDecode d.zsd = some zsd)
    (h : (MapLoop.mk { d with zsd } key []).Before lib mem payloadEnd entries effect (pairs++rest) after)
    (hkeys : ∀ p ∈ pairs, p.key ≠ .otherInt) (hentries : Recognised mem entries key pairs)
    (hall : (pairs.filterMap MapPair.entry).length = entries.length)
    (hne : pairs ≠ []) (hlast : ∀ p, pairs.getLast? = some p → p.entry ≠ none) :
    ∃ n s stop, (∀ fuel, n < fuel → zcborMapDecode lib mem entries fuel key d = some (.ok, s)) ∧
      Chain stop rest after ∧ s.decoder.zsd = d.zsd.readTo stop ∧
      s.pairs = pairs.map MapPair.entry ∧ Effects effect pairs d.world s.decoder.world := by
  have hdrop := requested_dropLast hlast hne
  obtain ⟨t, hcomes, hbefore, hpairs, hcontext, heffects⟩ := h.comes hkeys hentries fun _ => by
    simp only [MapLoop.numDecoded, MapLoop.decoded, List.filterMap_nil, List.length_nil]
    omega
  have hdecoded : t.numDecoded = entries.length := by
    refine Eq.trans ?_ hall
    simp [MapLoop.numDecoded, MapLoop.decoded, hpairs, List.filterMap_map]
  obtain ⟨hopens, -⟩ := hlib.mapStart _ _ hstart
  have hbackups : t.decoder.zsd.backups = (d.zsd.elemCount - 1, d.zsd.indefinite) :: d.zsd.backups :=
    hcontext.backups.trans hopens.backups
  obtain ⟨last, hforce⟩ := Option.ne_none_iff_exists'.mp
    (hlib.forceEnds t.decoder.zsd (by rw [hbackups]; exact List.cons_ne_nil _ _))
  obtain ⟨n, hn⟩ := zcborMapDecode_of_comes hstart (by omega) hcomes hdecoded hforce
  refine ⟨n, _, t.decoder.zsd.payload, hn, hbefore.chain, ?_, by simpa using hpairs, heffects⟩
  -- the end of the map brings back the containers around it
  obtain ⟨elemCount, indefinite, hframe, heq⟩ := hlib.forceEnd _ _ hforce
  rw [hbackups] at hframe
  obtain ⟨hpair, hrest⟩ := List.cons.inj hframe
  obtain ⟨rfl, rfl⟩ := Prod.mk.inj hpair
  show last = d.zsd.readTo t.decoder.zsd.payload
  rw [heq, ← hrest]
  simp only [ZcborState.readTo, ZcborState.mk.injEq, true_and]
  exact ⟨hcontext.payloadEnd.trans hopens.payloadEnd,
    hcontext.numBackups.trans hopens.numBackups⟩

/-- Another integer before all that is requested has been decoded is an error. -/
theorem zcborMapDecode_otherInt {rest : List (MapPair entries.length)}
    (hstart : lib.mapStartDecode d.zsd = some zsd)
    (h : (MapLoop.mk { d with zsd } key []).Before lib mem payloadEnd entries effect (pairs++p :: rest)
      after)
    (hkeys : ∀ p ∈ pairs, p.key ≠ .otherInt) (hentries : Recognised mem entries key pairs)
    (hfew : (pairs.filterMap MapPair.entry).length < entries.length) (hkey : p.key = .otherInt) :
    ∃ n e s, ∀ fuel, n < fuel → zcborMapDecode lib mem entries fuel key d = some (.err e, s) := by
  have hdrop : (pairs.dropLast.filterMap MapPair.entry).length ≤
      (pairs.filterMap MapPair.entry).length :=
    ((List.dropLast_sublist pairs).filterMap _).length_le
  obtain ⟨t, hcomes, hbefore, hpairs, -⟩ := h.comes hkeys hentries fun _ => by
    simp only [MapLoop.numDecoded, MapLoop.decoded, List.filterMap_nil, List.length_nil]
    omega
  have hwanted : t.numDecoded < entries.length := by
    refine lt_of_eq_of_lt ?_ hfew
    simp [MapLoop.numDecoded, MapLoop.decoded, hpairs, List.filterMap_map]
  obtain ⟨u, hstep⟩ := hbefore.step_otherInt hwanted hkey
  obtain ⟨n, hn⟩ := hcomes.run hstep
  refine ⟨n, .ebadmsg, u, fun fuel hfuel => ?_⟩
  simp only [zcborMapDecode, hstart, hn fuel hfuel]

end

end

structure MapLies {ω : Type*} (lib : Zcbor) (mem : Memory) (entries : List (ZcborMapEntry ω))
    (z zsd : ZcborState) (pairs : List (MapPair entries.length)) (after : Nat) : Prop where
  start : lib.mapStartDecode z = some zsd
  definite : zsd.indefinite = false ∧ zsd.elemCount = 2*pairs.length
  chain : Chain zsd.payload pairs after
  lies : ∀ p ∈ pairs, p.Lies lib mem z.payloadEnd entries fun _ _ _ => True
  once : (pairs.filterMap MapPair.entry).Perm (List.finRange entries.length)

section
variable {ω : Type*} {lib : Zcbor} {mem : Memory} {entries : List (ZcborMapEntry ω)}
  {d : Decoder ω} {zsd : ZcborState} {pairs : List (MapPair entries.length)} {after : Nat}

theorem MapLies.before (hlib : lib.Lawful mem) (h : MapLies lib mem entries d.zsd zsd pairs after)
    (key : ZcborMapKey) :
    (MapLoop.mk { d with zsd } key []).Before lib mem d.zsd.payloadEnd entries (fun _ _ _ => True)
      pairs after :=
  ⟨h.chain, (hlib.mapStart _ _ h.start).1.payloadEnd, h.definite.2.ge, h.lies⟩

/-- Such a map is decoded, each pair for its entry, with the decoder right behind it, exactly
if its last pair is a requested one, its integers have 32 bits, and every entry is found. -/
theorem MapLies.decodes_iff (hlib : lib.Lawful mem)
    (h : MapLies lib mem entries d.zsd zsd pairs after) (key : ZcborMapKey) :
    (∃ n, ∀ fuel, n < fuel → ∃ s, zcborMapDecode lib mem entries fuel key d = some (.ok, s) ∧
      s.decoder.zsd = d.zsd.readTo after ∧ s.pairs = pairs.map MapPair.entry) ↔
    (∃ p, pairs.getLast? = some p ∧ p.entry ≠ none) ∧ (∀ p ∈ pairs, p.key ≠ .otherInt) ∧
      Recognised mem entries key pairs := by
  have hall : (pairs.filterMap MapPair.entry).length = entries.length := by
    rw [h.once.length_eq, List.length_finRange]
  constructor
  · rintro ⟨n, hn⟩
    obtain ⟨s, hdecode, -, hpairs⟩ := hn (n + 1) (Nat.lt_succ_self n)
    obtain ⟨hpos, t, hcomes, hdecoded, last, -, rfl⟩ := comes_of_zcborMapDecode h.start hdecode
    obtain ⟨hkeys, hentries, hlast⟩ := (h.before hlib key).of_comes hcomes (by simpa using hpairs)
      hdecoded
    refine ⟨?_, hkeys, hentries⟩
    have hne : pairs ≠ [] := by
      intro hnil
      rw [hnil, List.filterMap_nil, List.length_nil] at hall
      omega
    exact ⟨_, List.getLast?_eq_some_getLast hne, hlast _ (List.getLast?_eq_some_getLast hne)⟩
  · rintro ⟨⟨p, hp, hrequested⟩, hkeys, hentries⟩
    have hne : pairs ≠ [] := by
      intro hnil
      rw [hnil] at hp
      cases hp
    have hbefore := h.before hlib key
    rw [← List.append_nil pairs] at hbefore
    obtain ⟨n, s, stop, hdecode, hstop, hzsd, hpairs, -⟩ := zcborMapDecode_front hlib h.start hbefore
      hkeys hentries hall hne fun q hq => by
        obtain rfl : p = q := Option.some.inj (hp.symm.trans hq)
        exact hrequested
    obtain rfl : stop = after := hstop
    exact ⟨n, fun fuel hfuel => ⟨s, hdecode fuel hfuel, hzsd, hpairs⟩⟩

end

/- Items with heads of one byte or two, for the library that reads those. -/
section
variable {mem : Memory} {address payloadEnd : Nat} {z : ZcborState}

theorem shortHead_one (hat : z.At address payloadEnd) (hlt : address < payloadEnd)
    (hinfo : (mem address).toNat % 32 < 24) :
    shortHead mem z =
      some (zcborMajorType (mem address), (mem address).toNat % 32, address + 1) := by
  obtain ⟨rfl, rfl, helem⟩ := hat
  simp only [shortHead, hlt, helem, ne_eq, not_false_eq_true, and_self, not_true, if_false, hinfo,
    if_true]

theorem shortHead_two (hat : z.At address payloadEnd) (hlt : address + 1 < payloadEnd)
    (hinfo : (mem address).toNat % 32 = 24) :
    shortHead mem z =
      some (zcborMajorType (mem address), (mem (address + 1)).toNat, address + 2) := by
  obtain ⟨rfl, rfl, helem⟩ := hat
  have hpayload : z.payload < z.payloadEnd := by omega
  simp [shortHead, hlt, helem, hinfo, hpayload]

theorem shortHead_pint (hat : z.At address payloadEnd) (hlt : address < payloadEnd)
    (hbyte : (mem address).toNat < 24) :
    shortHead mem z = some (.pint, (mem address).toNat, address + 1) := by
  have htype : zcborMajorType (mem address) = .pint := by
    simp only [zcborMajorType, Nat.div_eq_of_lt (Nat.lt_trans hbyte (by decide : 24 < 32))]
  rw [shortHead_one hat hlt (by omega), htype, Nat.mod_eq_of_lt (by omega)]

theorem short_uint32 (hat : z.At address payloadEnd) (hlt : address < payloadEnd)
    (hbyte : (mem address).toNat < 24) :
    (shortZcbor mem).uint32Decode z =
      some (UInt32.ofNat (mem address).toNat, z.readTo (address + 1)) := by
  simp only [shortZcbor, shortValue, shortHead_pint hat hlt hbyte, if_true, Option.map_some]

theorem short_int32 (hat : z.At address payloadEnd) (hlt : address < payloadEnd)
    (hbyte : (mem address).toNat < 24) :
    (shortZcbor mem).int32Decode z = some (((mem address).toNat : Int), z.readTo (address + 1)) := by
  simp only [shortZcbor, shortValue, shortHead_pint hat hlt hbyte, shortInt, Option.map_some]

theorem short_skip (hat : z.At address payloadEnd) (hlt : address < payloadEnd)
    (hbyte : (mem address).toNat < 24) :
    (shortZcbor mem).anySkip z = some (z.readTo (address + 1)) := by
  simp only [shortZcbor, shortSkip, shortHead_pint hat hlt hbyte, true_or, if_true]

theorem short_tstr {type : ZcborMajorType} {n after : Nat}
    (hhead : shortHead mem z = some (type, n, after)) (htype : type = .tstr)
    (hfits : after + n ≤ z.payloadEnd) :
    (shortZcbor mem).tstrDecode z = some (⟨after, n⟩, z.readTo (after + n)) := by
  simp only [shortZcbor, hhead, htype, hfits, and_self, if_true]

theorem short_start (type : ZcborMajorType) (perEntry : Nat) (hat : z.At address payloadEnd)
    (hlt : address < payloadEnd) (hinfo : (mem address).toNat % 32 < 24)
    (htype : zcborMajorType (mem address) = type) (hfree : z.backups.length < z.numBackups) :
    shortStart mem type perEntry z = some
      { z with
        payload := address + 1
        elemCount := perEntry*((mem address).toNat % 32)
        indefinite := false
        backups := (z.elemCount - 1, z.indefinite) :: z.backups } := by
  have hhead := shortHead_one hat hlt hinfo
  obtain ⟨rfl, rfl, helem⟩ := hat
  have hne : (mem z.payload).toNat % 32 ≠ 31 := by omega
  simp only [shortStart, hfree, hlt, helem, htype, hne, hhead, ne_eq, not_false_eq_true, and_self,
    not_true, if_false]

end
end Pouch
