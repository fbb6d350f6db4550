import PouchNode.Manifest
import PouchNode.MapOrder

/-! Components of a manifest as they lie in memory. A component map is left behind its last
requested pair, wherever the map ends. -/
namespace Pouch

def ZcborState.openedAt (z : ZcborState) (first elemCount : Nat) (indefinite : Bool) : ZcborState :=
  { z with
    payload := first
    elemCount := elemCount
    indefinite := indefinite
    backups := (z.elemCount - 1, z.indefinite) :: z.backups }

structure ComponentLayout where
  package : Buf
  version : Buf
  size : Int
  hashStr : Buf
  hash : Vector UInt8 32
  start : Nat
  first : Nat
  elemCount : Nat
  indefinite : Bool
  pairs : List (MapPair 4)
  stop : Nat

def ComponentLayout.after (c : ComponentLayout) : Nat := if c.indefinite then c.stop + 1 else c.stop

def ComponentLayout.component (c : ComponentLayout) : GoliothOtaComponent :=
  ⟨cString c.package, cString c.version, c.hash, c.size⟩

def ComponentLayout.write (c : ComponentLayout) (i : Fin 4) (draft : ComponentDraft) :
    ComponentDraft :=
  if i = 0 then { draft with package := putText draft.package c.package }
  else if i = 1 then { draft with version := putText draft.version c.version }
  else if i = 2 then { draft with size := c.size }
  else { draft with hashStr := putText draft.hashStr c.hashStr }

section
variable (env : ManifestEnv) (cfg : OtaConfig) (payloadEnd : Nat)

def TextLies (value stop : Nat) (text : Buf) (valueLen : Nat) : Prop :=
  ∃ tstr : ZcborString, tstr.len ≤ valueLen ∧ env.mem.bytesAt tstr.value tstr.len = text ∧
    ∀ z, z.At value payloadEnd → env.lib.tstrDecode z = some (tstr, z.readTo stop)

def IntLies (value stop : Nat) (n : Int) : Prop :=
  ∀ z, z.At value payloadEnd → env.lib.int32Decode z = some (n, z.readTo stop)

def ComponentLayout.ValueLies (c : ComponentLayout) (i : Fin 4) (value stop : Nat) : Prop :=
  if i = 0 then TextLies env payloadEnd value stop c.package cfg.maxPackageNameLen
  else if i = 1 then TextLies env payloadEnd value stop c.version cfg.maxVersionLen
  else if i = 2 then IntLies env payloadEnd value stop c.size
  else TextLies env payloadEnd value stop c.hashStr goliothOtaComponentHashHexLen

def componentKey (i : Fin 4) : UInt32 :=
  if i = 0 then 1 else if i = 1 then 2 else if i = 2 then 4 else 3

/- The four requested keys are there once, with texts that fit and a hash that hex2bin takes.
   Any other key is an integer, or a text that does not lie at the first few addresses. -/
structure ComponentLayout.Lies (c : ComponentLayout) : Prop where
  mapStart : ∀ z, z.At c.start payloadEnd → z.backups.length < z.numBackups →
    env.lib.mapStartDecode z = some (z.openedAt c.first c.elemCount c.indefinite)
  count : 2*c.pairs.length ≤ c.elemCount
  definite : c.indefinite = false → c.elemCount = 2*c.pairs.length
  chain : Chain c.first c.pairs c.stop
  last : c.indefinite = true → env.mem c.stop = 0xFF
  forward : ∀ p ∈ c.pairs, p.start < p.stop
  key : ∀ p ∈ c.pairs, p.key.LiesAt env.lib env.mem payloadEnd p.start p.value
  requested : ∀ p ∈ c.pairs, ∀ i, p.entry = some i → p.key = .u32 (componentKey i)
  value : ∀ p ∈ c.pairs, ∀ i, p.entry = some i → c.ValueLies env cfg payloadEnd i p.value p.stop
  text : ∀ p ∈ c.pairs, ∀ text, p.key = .tstr text → ∀ i, text.value % 2^32 ≠ (componentKey i).toNat
  unknown : ∀ p ∈ c.pairs, p.entry = none → ∀ i, p.key ≠ .u32 (componentKey i)
  skipped : ∀ p ∈ c.pairs, p.entry = none → ∀ z, z.At p.value payloadEnd →
    env.lib.anySkip z = some (z.readTo p.stop)
  once : (c.pairs.filterMap MapPair.entry).Perm (List.finRange 4)
  hashLen : c.hashStr.length = goliothOtaComponentHashHexLen
  hex2bin : env.hex2bin c.hashStr = some c.hash

end

def ComponentLayout.EndsRequested (c : ComponentLayout) : Prop :=
  ∃ p, c.pairs.getLast? = some p ∧ p.entry ≠ none

def ComponentLayout.Readable (c : ComponentLayout) : Prop :=
  ∀ u p v, c.pairs = u++p :: v → p.key = .otherInt → ∀ q ∈ v, q.entry = none

section
variable {env : ManifestEnv} {cfg : OtaConfig} {payloadEnd : Nat} {c : ComponentLayout}

theorem componentEntries_key (i : Fin 4) :
    ((componentEntries env cfg).get i).key = .u32 (componentKey i) := by
  fin_cases i <;> rfl

theorem componentKey_inj {i j : Fin 4} (h : componentKey i = componentKey j) : i = j := by
  revert i j
  decide

theorem componentEntryDecodeValue_text {valueLen value stop : Nat} {text : Buf}
    (h : TextLies env payloadEnd value stop text valueLen)
    (store : Buf → ComponentDraft → ComponentDraft) (d : Decoder ComponentDraft)
    (hat : d.zsd.At value payloadEnd) :
    componentEntryDecodeValue env valueLen store d =
      (.ok, ⟨d.zsd.readTo stop, d.looked, store text d.world⟩) := by
  obtain ⟨tstr, hlen, hbytes, hdecode⟩ := h
  simp only [componentEntryDecodeValue, hdecode d.zsd hat, Nat.not_lt.mpr hlen, if_false, hbytes]

theorem ComponentLayout.ValueLies.decode {i : Fin 4} {value stop : Nat}
    (h : c.ValueLies env cfg payloadEnd i value stop) (d : Decoder ComponentDraft)
    (hat : d.zsd.At value payloadEnd) :
    ((componentEntries env cfg).get i).decode d =
      some (.ok, ⟨d.zsd.readTo stop, d.looked, c.write i d.world⟩) := by
  fin_cases i
  · exact congrArg some (componentEntryDecodeValue_text h _ d hat)
  · exact congrArg some (componentEntryDecodeValue_text h _ d hat)
  · have hdecode : env.lib.int32Decode d.zsd = some (c.size, d.zsd.readTo stop) := h d.zsd hat
    show some (mapValueDecode env.lib.int32Decode _ d) = _
    simp only [mapValueDecode, hdecode]
    rfl
  · exact congrArg some (componentEntryDecodeValue_text h _ d hat)

theorem ComponentLayout.Lies.lies (h : c.Lies env cfg payloadEnd) (p : MapPair 4) (hp : p ∈ c.pairs) :
    p.Lies env.lib env.mem payloadEnd (componentEntries env cfg) fun i w w' => w' = c.write i w where
  forward := h.forward p hp
  key := h.key p hp
  requested i hi := by
    rw [h.requested p hp i hi]
    exact componentEntries_key i
  accepted i d hi hat := ⟨d.looked, c.write i d.world, rfl, (h.value p hp i hi).decode d hat⟩
  unknown hnone i hfor := by
    have hentry : ((componentEntries env cfg).get i).key = .u32 (componentKey i) :=
      componentEntries_key i
    cases hkey : p.key with
    | u32 k =>
      rw [hkey] at hfor
      have hk : k = componentKey i := EntryKey.u32.inj (Eq.trans (Eq.symm hfor) hentry)
      exact h.unknown p hp hnone i (by rw [hkey, hk])
    | tstr text =>
      rw [hkey] at hfor
      cases Eq.trans (Eq.symm hfor) hentry
    | otherInt =>
      rw [hkey] at hfor
      exact hfor
  skipped z hnone hat := h.skipped p hp hnone z hat

theorem entryMatches_component (key : ZcborMapKey) (k : UInt32) (i : Fin 4) :
    entryMatches env.mem ((componentEntries env cfg).get i).key (key.setU32 k) =
      decide (componentKey i = k) := by
  rw [componentEntries_key, entryMatches, ZcborMapKey.setU32_u32, decide_eq_decide]
  exact UInt32.toNat_inj

theorem entryMatches_component_tstr (key : ZcborMapKey) (text : ZcborString) (i : Fin 4) :
    entryMatches env.mem ((componentEntries env cfg).get i).key (key.setTstr text) =
      decide ((componentKey i).toNat = text.value % 2^32) := by
  rw [componentEntries_key, entryMatches, ZcborMapKey.setTstr, ZcborMapKey.u32]

/-- All entries ask for integers, so each pair with an integer of 32 bits is recognised, and
a text is not taken for one. -/
theorem ComponentLayout.Lies.recognised (h : c.Lies env cfg payloadEnd) (pairs : List (MapPair 4))
    (hpairs : ∀ p ∈ pairs, p ∈ c.pairs) (hkeys : ∀ p ∈ pairs, p.key ≠ .otherInt)
    (key : ZcborMapKey) : Recognised env.mem (componentEntries env cfg) key pairs := by
  induction pairs generalizing key with
  | nil => trivial
  | cons p pairs ih =>
    have hp := hpairs p List.mem_cons_self
    refine ⟨?_, ih (fun q hq => hpairs q (List.mem_cons_of_mem _ hq))
      (fun q hq => hkeys q (List.mem_cons_of_mem _ hq)) _⟩
    cases hkey : p.key with
    | otherInt => exact absurd hkey (hkeys p List.mem_cons_self)
    | tstr text =>
      have hentry : p.entry = none := by
        refine Option.eq_none_iff_forall_ne_some.mpr fun i hi => ?_
        rw [h.requested p hp i hi] at hkey
        cases hkey
      rw [hentry]
      refine Fin.find?_eq_none_iff.mpr fun i => ?_
      exact (entryMatches_component_tstr key text i).trans
        (decide_eq_false fun hik => h.text p hp text hkey i hik.symm)
    | u32 k =>
      cases hentry : p.entry with
      | some i =>
        have hk : k = componentKey i := PairKey.u32.inj (hkey.symm.trans (h.requested p hp i hentry))
        refine Fin.find?_eq_some_iff.mpr ⟨?_, fun j hj => ?_⟩
        · exact (entryMatches_component key k i).trans (decide_eq_true hk.symm)
        · refine (entryMatches_component key k j).trans (decide_eq_false fun hjk => ?_)
          exact absurd (componentKey_inj (hjk.trans hk)) (Fin.ne_of_lt hj)
      | none =>
        refine Fin.find?_eq_none_iff.mpr fun i => ?_
        refine (entryMatches_component key k i).trans (decide_eq_false fun hik => ?_)
        exact h.unknown p hp hentry i (by rw [hkey, hik])

theorem exists_front {n : Nat} (pairs : List (MapPair n)) (h : ∃ p ∈ pairs, p.entry ≠ none) :
    ∃ front back, pairs = front++back ∧ front ≠ [] ∧
      (∀ p, front.getLast? = some p → p.entry ≠ none) ∧ ∀ q ∈ back, q.entry = none := by
  induction pairs using List.reverseRecOn with
  | nil => simp at h
  | append_singleton pairs p ih =>
    by_cases hp : p.entry = none
    · obtain ⟨front, back, rfl, hne, hlast, hback⟩ := ih (by
        obtain ⟨q, hq, hrequested⟩ := h
        rw [List.mem_append, List.mem_singleton] at hq
        cases hq with
        | inl hin => exact ⟨q, hin, hrequested⟩
        | inr heq => exact absurd (heq ▸ hp) hrequested)
      refine ⟨front, back++[p], List.append_assoc _ _ _, hne, hlast, fun q hq => ?_⟩
      rw [List.mem_append, List.mem_singleton] at hq
      cases hq with
      | inl hin => exact hback q hin
      | inr heq => exact heq ▸ hp
    · exact ⟨pairs++[p], [], by simp, by simp, by simpa using hp, by simp⟩

theorem effects_write (pairs : List (MapPair 4)) (w w' : ComponentDraft)
    (h : Effects (fun i w w' => w' = c.write i w) pairs w w') :
    w' = (pairs.filterMap MapPair.entry).foldl (fun w i => c.write i w) w := by
  induction pairs generalizing w with
  | nil => exact h
  | cons p pairs ih =>
    obtain ⟨v, hv, hrest⟩ := h
    rw [ih v hrest]
    cases hentry : p.entry with
    | none =>
      rw [hentry] at hv
      obtain rfl : v = w := hv
      rw [List.filterMap_cons_none hentry]
    | some i =>
      rw [hentry] at hv
      obtain rfl : v = c.write i w := hv
      rw [List.filterMap_cons_some hentry, List.foldl_cons]

theorem ComponentLayout.write_comm (c : ComponentLayout) (i j : Fin 4) (w : ComponentDraft) :
    c.write j (c.write i w) = c.write i (c.write j w) := by
  simp only [ComponentLayout.write]
  split_ifs <;> rfl

theorem takeWhile_ne_nul (text rest : Buf) :
    (text++0 :: rest).takeWhile (· ≠ 0) = text.takeWhile (· ≠ 0) := by
  induction text with
  | nil => rfl
  | cons c text ih =>
    rw [List.cons_append, List.takeWhile_cons, List.takeWhile_cons, ih]

theorem cString_putText (array text : Buf) : cString (putText array text) = cString text := by
  simp only [cString, CString.mk.injEq]
  exact takeWhile_ne_nul text _

/-- What the callbacks of all four entries have written, in any order, is the component. -/
theorem ComponentLayout.Lies.draft (h : c.Lies env cfg payloadEnd) (entries : List (Fin 4))
    (hperm : entries.Perm (List.finRange 4)) (w : ComponentDraft) :
    (entries.foldl (fun w i => c.write i w) w).component c.hash = c.component ∧
      env.hex2bin ((entries.foldl (fun w i => c.write i w) w).hashStr.take
        goliothOtaComponentHashHexLen) = some c.hash := by
  have hfold : entries.foldl (fun w i => c.write i w) w =
      (List.finRange 4).foldl (fun w i => c.write i w) w :=
    hperm.foldl_eq' (fun i _ j _ w => c.write_comm i j w) w
  have hall : (List.finRange 4).foldl (fun w i => c.write i w) w =
      ⟨putText w.package c.package, putText w.version c.version, putText w.hashStr c.hashStr,
        c.size⟩ := rfl
  rw [hfold, hall]
  constructor
  · simp only [ComponentDraft.component, ComponentLayout.component, cString_putText]
  · simp only [putText]
    rw [List.take_left' h.hashLen]
    exact h.hex2bin

theorem exists_first {α : Type*} {P : α → Prop} (l : List α) (h : ∃ a ∈ l, P a) :
    ∃ u a v, l = u++a :: v ∧ P a ∧ ∀ b ∈ u, ¬ P b := by
  induction l with
  | nil => simp at h
  | cons a l ih =>
    by_cases ha : P a
    · exact ⟨[], a, l, rfl, ha, by simp⟩
    · obtain ⟨u, b, v, rfl, hb, hu⟩ := ih (by
        obtain ⟨b, hb, hP⟩ := h
        cases List.mem_cons.mp hb with
        | inl heq => exact absurd (heq ▸ hP) ha
        | inr hin => exact ⟨b, hin, hP⟩)
      exact ⟨a :: u, b, v, rfl, hb, List.forall_mem_cons.mpr ⟨ha, hu⟩⟩

/-- A component that is not readable has an integer of more than 32 bits with only others
before it, and with a requested pair behind it. -/
theorem ComponentLayout.exists_of_not_readable (h : ¬ c.Readable) :
    ∃ u p v, c.pairs = u++p :: v ∧ p.key = .otherInt ∧ (∀ q ∈ u, q.key ≠ .otherInt) ∧
      ∃ q ∈ v, q.entry ≠ none := by
  simp only [ComponentLayout.Readable, not_forall] at h
  obtain ⟨u, p, v, hsplit, hp, q, hq, hrequested⟩ := h
  obtain ⟨u', p', v', hsplit', hp', hfirst⟩ := exists_first (P := fun p => p.key = .otherInt) c.pairs
    ⟨p, by simp [hsplit], hp⟩
  refine ⟨u', p', v', hsplit', hp', hfirst, q, ?_, hrequested⟩
  rw [hsplit] at hsplit'
  rcases List.append_eq_append_iff.mp hsplit' with ⟨a, hu, hv⟩ | ⟨a, hu, hv⟩
  · -- the first one lies behind p, or it is p
    cases a with
    | nil =>
      obtain ⟨-, rfl⟩ := List.cons.inj hv
      exact hq
    | cons b a =>
      obtain ⟨rfl, -⟩ := List.cons.inj hv
      exact absurd hp (hfirst p (by simp [hu]))
  · cases a with
    | nil =>
      obtain ⟨-, rfl⟩ := List.cons.inj hv
      exact hq
    | cons b a =>
      obtain ⟨-, rfl⟩ := List.cons.inj hv
      simp [hq]

section
variable {key : ZcborMapKey} {d : Decoder ComponentDraft}

theorem ComponentLayout.Lies.before (h : c.Lies env cfg payloadEnd)
    (hat : d.zsd.At c.start payloadEnd) (key : ZcborMapKey) :
    (MapLoop.mk { d with zsd := d.zsd.openedAt c.first c.elemCount c.indefinite } key []).Before
      env.lib env.mem payloadEnd (componentEntries env cfg) (fun i w w' => w' = c.write i w)
      c.pairs c.stop :=
  ⟨h.chain, hat.payloadEnd, h.count, h.lies⟩

theorem ComponentLayout.Lies.decodes (h : c.Lies env cfg payloadEnd) (hlib : env.lib.Lawful env.mem)
    (hread : c.Readable) (hat : d.zsd.At c.start payloadEnd)
    (hfree : d.zsd.backups.length < d.zsd.numBackups) (key : ZcborMapKey) :
    ∃ n map stop back, (∀ fuel, n < fuel → zcborMapDecode env.lib env.mem (componentEntries env cfg)
        fuel key d = some (.ok, map)) ∧
      map.decoder.zsd = d.zsd.readTo stop ∧ Chain stop back c.stop ∧ (∀ q ∈ back, q ∈ c.pairs) ∧
      (back = [] ↔ c.EndsRequested) ∧ map.decoder.world.component c.hash = c.component ∧
      env.hex2bin (map.decoder.world.hashStr.take goliothOtaComponentHashHexLen) = some c.hash := by
  have hcard : (c.pairs.filterMap MapPair.entry).length = 4 := by
    rw [h.once.length_eq, List.length_finRange]
  obtain ⟨front, back, hpairs, hne, hlast, hback⟩ := exists_front c.pairs (by
    by_contra hnone
    push Not at hnone
    rw [List.filterMap_eq_nil_iff.mpr hnone] at hcard
    cases hcard)
  have hentry : back.filterMap MapPair.entry = [] := List.filterMap_eq_nil_iff.mpr hback
  have hrequested : front.filterMap MapPair.entry = c.pairs.filterMap MapPair.entry := by
    rw [hpairs, List.filterMap_append, hentry, List.append_nil]
  -- an integer of more than 32 bits in front has the last requested pair behind it
  have hkeys : ∀ p ∈ front, p.key ≠ .otherInt := by
    intro p hp hother
    obtain ⟨u, v, rfl⟩ := List.append_of_mem hp
    have hbehind := hread u p (v++back) (by rw [hpairs, List.append_assoc, List.cons_append]) hother
    cases v with
    | nil =>
      have hkey := h.requested p (by simp [hpairs])
      cases hp' : p.entry with
      | none => exact hlast p (by simp) hp'
      | some i =>
        rw [hkey i hp'] at hother
        cases hother
    | cons q v =>
      have hq : (q :: v).getLast (List.cons_ne_nil _ _) ∈ (q :: v)++back :=
        List.mem_append_left _ (List.getLast_mem _)
      have hgetLast : (u++p :: q :: v).getLast? = some ((q :: v).getLast (List.cons_ne_nil _ _)) := by
        rw [List.getLast?_append_of_ne_nil _ (List.cons_ne_nil _ _), List.getLast?_cons_cons,
          List.getLast?_eq_some_getLast]
      exact hlast _ hgetLast (hbehind _ hq)
  have hbefore := h.before hat key
  rw [hpairs] at hbefore
  obtain ⟨n, map, stop, hdecode, hchain, hzsd, -, heffects⟩ := zcborMapDecode_front hlib
    (h.mapStart d.zsd hat hfree) hbefore hkeys
    (h.recognised front (fun p hp => by rw [hpairs]; exact List.mem_append_left _ hp) hkeys key)
    ((congrArg List.length hrequested).trans hcard) hne hlast
  have hdraft := h.draft (front.filterMap MapPair.entry) (hrequested ▸ h.once) d.world
  rw [← effects_write front d.world map.decoder.world heffects] at hdraft
  refine ⟨n, map, stop, back, hdecode, hzsd, hchain,
    fun q hq => by rw [hpairs]; exact List.mem_append_right _ hq, ?_, hdraft.1, hdraft.2⟩
  constructor
  · rintro rfl
    rw [List.append_nil] at hpairs
    exact ⟨front.getLast hne, by rw [hpairs, List.getLast?_eq_some_getLast hne],
      hlast _ (List.getLast?_eq_some_getLast hne)⟩
  · rintro ⟨p, hp, hentry'⟩
    by_contra hne'
    rw [hpairs, List.getLast?_append_of_ne_nil _ hne'] at hp
    exact hentry' (hback p (List.mem_of_getLast? hp))

theorem ComponentLayout.Lies.fails (h : c.Lies env cfg payloadEnd) (hread : ¬ c.Readable)
    (hat : d.zsd.At c.start payloadEnd) (hfree : d.zsd.backups.length < d.zsd.numBackups)
    (key : ZcborMapKey) :
    ∃ n e map, ∀ fuel, n < fuel → zcborMapDecode env.lib env.mem (componentEntries env cfg)
      fuel key d = some (.err e, map) := by
  obtain ⟨u, p, v, hpairs, hp, hkeys, q, hq, hrequested⟩ := c.exists_of_not_readable hread
  have hcard : (c.pairs.filterMap MapPair.entry).length = 4 := by
    rw [h.once.length_eq, List.length_finRange]
  have hfew : (u.filterMap MapPair.entry).length < 4 := by
    obtain ⟨i, hi⟩ := Option.ne_none_iff_exists'.mp hrequested
    have hpos : 0 < ((p :: v).filterMap MapPair.entry).length :=
      List.length_pos_of_mem (List.mem_filterMap.mpr ⟨q, List.mem_cons_of_mem _ hq, hi⟩)
    rw [hpairs, List.filterMap_append, List.length_append] at hcard
    omega
  have hbefore := h.before hat key
  rw [hpairs] at hbefore
  exact zcborMapDecode_otherInt (h.mapStart d.zsd hat hfree) hbefore hkeys
    (h.recognised u (fun p hp => by rw [hpairs]; exact List.mem_append_left _ hp) hkeys key) hfew hp

end

end

end Pouch
