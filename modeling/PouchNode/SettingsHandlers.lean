import PouchNode.MapOrder
import PouchNode.Settings
import PouchNode.DownlinkEntry

/-! Settings and their handlers (golioth_settings_receive_one in golioth_sdk/settings_callbacks.c).
A label is copied into a C string of limited length before it is compared with the keys of the
handlers: one that is longer, or has a NUL in it, is taken for another name. -/
namespace Pouch
open Loop

inductive GoliothSettingValueType where
  | unknown | int | bool | float | string
  deriving DecidableEq

def SettingData.type : SettingData → GoliothSettingValueType
  | .string _ => .string
  | .int _ => .int
  | .float _ => .float
  | .bool _ => .bool

structure GoliothSettingsHandler where
  key : CString
  type : GoliothSettingValueType
  deriving DecidableEq

inductive SettingReceived where
  | called (setting : GoliothSettingsHandler) (data : SettingData)
  | einval
  | enoent
  deriving DecidableEq

def goliothSettingsReceiveOne : List GoliothSettingsHandler → SettingValue → SettingReceived
  | [], _ => .enoent
  | setting :: rest, value =>
    if setting.key = cString value.key then
      if setting.type ≠ value.data.type then .einval
      else
        match setting.type with
        | .int | .bool | .float | .string => .called setting value.data
        | .unknown => goliothSettingsReceiveOne rest value
    else goliothSettingsReceiveOne rest value

def SettingReceived.callback : SettingReceived → Option (GoliothSettingsHandler × SettingData)
  | .called setting data => some (setting, data)
  | .einval | .enoent => none

def namedHandler (handlers : List GoliothSettingsHandler) (label : Buf) (data : SettingData) :
    Option (GoliothSettingsHandler × SettingData) :=
  (handlers.find? fun setting =>
    decide (setting.key.chars = label) && decide (setting.type = data.type)).map (·, data)

inductive SettingItem where
  | text (t : Buf)
  | int (n : Int)
  | float (bits : UInt64)
  | bool (b : Bool)
  | other
  deriving DecidableEq

def SettingItem.data : SettingItem → Option SettingData
  | .text t => some (.string t)
  | .int n => if -2^31 ≤ n ∧ n < 2^31 then some (.int n) else none
  | .float bits => some (.float bits)
  | .bool b => some (.bool b)
  | .other => none

structure SettingPair where
  label : Buf
  item : SettingItem
  start : Nat
  value : Nat
  stop : Nat

def SettingPair.received (p : SettingPair) : Option SettingValue :=
  p.item.data.map fun data => ⟨p.label.take goliothSettingsMaxNameLen, data⟩

section
variable (lib : Zcbor) (mem : Memory)

def SettingItem.Reads (z : ZcborState) (stop : Nat) : SettingItem → Prop
  | .text t => zcborMajorType (mem z.payload) = .tstr ∧ ∃ str, lib.tstrDecode z = some (str, z.readTo stop) ∧
      mem.bytesAt str.value str.len = t
  | .int n => (zcborMajorType (mem z.payload) = .pint ∨ zcborMajorType (mem z.payload) = .nint) ∧
      lib.int32Decode z = if -2^31 ≤ n ∧ n < 2^31 then some (n, z.readTo stop) else none
  | .float bits => zcborMajorType (mem z.payload) = .simple ∧
      lib.floatDecode z = some (bits, z.readTo stop)
  | .bool b => zcborMajorType (mem z.payload) = .simple ∧ lib.floatDecode z = none ∧
      lib.boolDecode z = some (b, z.readTo stop)
  | .other => zcborMajorType (mem z.payload) ≠ .pint ∧ zcborMajorType (mem z.payload) ≠ .nint ∧
      (zcborMajorType (mem z.payload) = .tstr → lib.tstrDecode z = none) ∧
      (zcborMajorType (mem z.payload) = .simple → lib.floatDecode z = none ∧ lib.boolDecode z = none)

structure SettingPair.Lies (payloadEnd : Nat) (p : SettingPair) : Prop where
  label : ∃ text, mem.bytesAt text.value text.len = p.label ∧
    ∀ z, z.At p.start payloadEnd → lib.tstrDecode z = some (text, z.readTo p.value)
  item : ∀ z, z.At p.value payloadEnd → p.item.Reads lib mem z p.stop
  skipped : ∀ z, z.At p.value payloadEnd → lib.anySkip z = some (z.readTo p.stop)

def SettingsChain : Nat → List SettingPair → Nat → Prop
  | address, [], after => address = after
  | address, p :: pairs, after => p.start = address ∧ SettingsChain p.stop pairs after

structure SettingsLie (z zsd : ZcborState) (pairs : List SettingPair) (after : Nat) : Prop where
  map : lib.nilExpect z = none
  start : lib.mapStartDecode z = some zsd
  payloadEnd : zsd.payloadEnd = z.payloadEnd
  definite : zsd.indefinite = false ∧ zsd.elemCount = 2*pairs.length
  chain : SettingsChain zsd.payload pairs after
  lies : ∀ p ∈ pairs, p.Lies lib mem z.payloadEnd
  stop : ∀ last, zsd.SameContext last → last.payload = after → last.elemCount = 0 →
    lib.mapEndDecode last ≠ none

/- Every pair whose value is decoded leads to the call that it names, in the order of the map,
   and nothing else does. -/
def SettingsReachNamed (fuel : Nat) (handlers : List GoliothSettingsHandler)
    (pairs : List SettingPair) (d : Decoder Settings) : Prop :=
  ∃ d' received, settingsDecode lib mem fuel d = some (.ok, d') ∧
    d'.world.received = d.world.received++received ∧
    received.map (fun value => (goliothSettingsReceiveOne handlers value).callback) =
      pairs.filterMap fun p => p.item.data.map (namedHandler handlers p.label)

end

section
variable {lib : Zcbor} {mem : Memory}

theorem take_bytesAt (mem : Memory) (address len n : Nat) :
    (mem.bytesAt address len).take n = mem.bytesAt address (min n len) := by
  simp only [Memory.bytesAt, ← List.map_take, List.take_range]

/-- The switch over the major type decodes what there is to hand on. -/
theorem settingValueDecode_reads_item {item : SettingItem} {z : ZcborState} {stop : Nat}
    (h : item.Reads lib mem z stop) :
    settingValueDecode lib mem z = item.data.map (·, z.readTo stop) := by
  cases item with
  | text t =>
    obtain ⟨htype, str, hdecode, rfl⟩ := h
    simp [settingValueDecode, htype, hdecode, SettingItem.data]
  | int n =>
    obtain ⟨htype | htype, hdecode⟩ := h
    · simp only [settingValueDecode, htype, hdecode, SettingItem.data]
      split <;> rfl
    · simp only [settingValueDecode, htype, hdecode, SettingItem.data]
      split <;> rfl
  | float bits => simp [settingValueDecode, h.1, h.2, SettingItem.data]
  | bool b => simp [settingValueDecode, h.1, h.2.1, h.2.2, SettingItem.data]
  | other =>
    obtain ⟨hpint, hnint, htstr, hsimple⟩ := h
    cases htype : zcborMajorType (mem z.payload) with
    | tstr => simp [settingValueDecode, htype, htstr htype, SettingItem.data]
    | simple => simp [settingValueDecode, htype, hsimple htype, SettingItem.data]
    | pint => exact absurd htype hpint
    | nint => exact absurd htype hnint
    | _ => simp [settingValueDecode, htype, SettingItem.data]

/-- A pair is read, and its value handed on if there is one. -/
theorem SettingPair.Lies.step {payloadEnd : Nat} {p : SettingPair} (h : p.Lies lib mem payloadEnd)
    {d : Decoder Settings} (hpayload : d.zsd.payload = p.start)
    (hend : d.zsd.payloadEnd = payloadEnd) (hdefinite : d.zsd.indefinite = false)
    (hcount : 2 ≤ d.zsd.elemCount) :
    ∃ looked, settingsStep lib mem d = some (.inl ⟨(d.zsd.readTo p.value).readTo p.stop, looked,
      { d.world with received := d.world.received++p.received.toList }⟩) := by
  obtain ⟨text, htext, hlabel⟩ := h.label
  have hmore : zcborListOrMapEnd mem d = (false, d) := by
    have hne : d.zsd.elemCount ≠ 0 := by omega
    simp [zcborListOrMapEnd, hdefinite, hne]
  have hname := hlabel d.zsd ⟨hpayload, hend, by omega⟩
  have hat : (d.zsd.readTo p.value).At p.value payloadEnd :=
    ⟨rfl, hend, by simp only [ZcborState.readTo]; omega⟩
  have hvalue := settingValueDecode_reads_item (h.item _ hat)
  have hsetting : settingDecode lib mem text (d.zsd.readTo p.value) d.world =
      some ((d.zsd.readTo p.value).readTo p.stop,
        { d.world with received := d.world.received++p.received.toList }) := by
    simp only [settingDecode, hvalue, ← take_bytesAt, htext, SettingPair.received]
    cases p.item.data with
    | none => simp [h.skipped _ hat]
    | some data => simp
  refine ⟨d.looked++[p.value], ?_⟩
  simp only [settingsStep, hmore, Bool.false_eq_true, if_false, hname, Decoder.look, hsetting]
  rfl

theorem settingsRun_lies {payloadEnd after : Nat} {pairs : List SettingPair}
    (hlies : ∀ p ∈ pairs, p.Lies lib mem payloadEnd) {d : Decoder Settings}
    (hchain : SettingsChain d.zsd.payload pairs after) (hend : d.zsd.payloadEnd = payloadEnd)
    (hdefinite : d.zsd.indefinite = false) (hcount : d.zsd.elemCount = 2*pairs.length) {fuel : Nat}
    (hfuel : pairs.length < fuel) :
    ∃ d', run (settingsStep lib mem) fuel d = some (none, d') ∧ d.zsd.SameContext d'.zsd ∧
      d'.zsd.payload = after ∧ d'.zsd.elemCount = 0 ∧
      d'.world.received = d.world.received++pairs.filterMap SettingPair.received := by
  induction pairs generalizing d fuel with
  | nil =>
    have hzero : d.zsd.elemCount = 0 := by simpa using hcount
    have hended : settingsStep lib mem d = some (.inr (none, d)) := by
      simp [settingsStep, zcborListOrMapEnd, hdefinite, hzero]
    exact ⟨d, run_inr hended hfuel, ⟨rfl, rfl, rfl, rfl⟩, hchain, hzero, by simp⟩
  | cons p pairs ih =>
    rw [List.length_cons] at hcount hfuel
    obtain ⟨looked, hstep⟩ := (hlies p List.mem_cons_self).step hchain.1.symm hend hdefinite (by omega)
    obtain ⟨d', hrun, hcontext, hpayload, hzero, hreceived⟩ := ih
      (fun q hq => hlies q (List.mem_cons_of_mem _ hq))
      (d := ⟨(d.zsd.readTo p.value).readTo p.stop, looked,
        { d.world with received := d.world.received++p.received.toList }⟩) hchain.2 hend hdefinite
      (by simp only [ZcborState.readTo]; omega) (show pairs.length < fuel - 1 by omega)
    refine ⟨d', ?_, ⟨hcontext.payloadEnd, hcontext.indefinite, hcontext.backups, hcontext.numBackups⟩,
      hpayload, hzero, ?_⟩
    · rw [run_inl hstep (by omega)]
      exact hrun
    · rw [hreceived, List.append_assoc]
      cases hp : p.received <;> simp [hp]

theorem SettingsLie.decodes {d : Decoder Settings} {zsd : ZcborState} {pairs : List SettingPair}
    {after : Nat} (h : SettingsLie lib mem d.zsd zsd pairs after) {fuel : Nat}
    (hfuel : pairs.length < fuel) :
    ∃ d', settingsDecode lib mem fuel d = some (.ok, d') ∧
      d'.world.received = d.world.received++pairs.filterMap SettingPair.received := by
  obtain ⟨d', hrun, hcontext, hpayload, hzero, hreceived⟩ := settingsRun_lies h.lies
    (d := { d with zsd }) h.chain h.payloadEnd h.definite.1 h.definite.2 hfuel
  obtain ⟨last, hlast⟩ := Option.ne_none_iff_exists'.mp (h.stop d'.zsd hcontext hpayload hzero)
  refine ⟨{ d' with zsd := last }, ?_, hreceived⟩
  simp only [settingsDecode, h.map, h.start, hrun, hlast]

end

section
variable {handlers : List GoliothSettingsHandler} {setting : GoliothSettingsHandler}
  {data data' : SettingData} {label : Buf}

theorem cString_eq_of_chars {a b : CString} (h : a.chars = b.chars) : a = b := by
  cases a
  cases b
  cases h
  rfl

theorem SettingData.type_ne_unknown (data : SettingData) : data.type ≠ .unknown := by
  cases data <;> simp [SettingData.type]

/-- A callback is called for the string that is left of a label. -/
theorem receiveOne_callback_iff (hkeys : (handlers.map GoliothSettingsHandler.key).Nodup)
    (value : SettingValue) :
    (goliothSettingsReceiveOne handlers value).callback = some (setting, data) ↔
      setting ∈ handlers ∧ setting.key = cString value.key ∧ setting.type = value.data.type ∧
        data = value.data := by
  induction handlers with
  | nil => simp [goliothSettingsReceiveOne, SettingReceived.callback]
  | cons first rest ih =>
    rw [List.map_cons, List.nodup_cons] at hkeys
    by_cases hkey : first.key = cString value.key
    · -- no other handler has this key
      have hother : setting ∈ rest → setting.key ≠ cString value.key := by
        intro hmem heq
        exact hkeys.1 (List.mem_map.mpr ⟨setting, hmem, heq.trans hkey.symm⟩)
      by_cases htype : first.type = value.data.type
      · have hcall : goliothSettingsReceiveOne (first :: rest) value = .called first value.data := by
          have hknown := value.data.type_ne_unknown
          rw [← htype] at hknown
          simp only [goliothSettingsReceiveOne, hkey, htype, if_true, ne_eq, not_true, if_false]
          rw [← htype]
          cases hfirst : first.type with
          | unknown => exact absurd hfirst hknown
          | _ => rfl
        rw [hcall]
        simp only [SettingReceived.callback, Option.some.injEq, Prod.mk.injEq, List.mem_cons]
        constructor
        · rintro ⟨rfl, rfl⟩
          exact ⟨Or.inl rfl, hkey, htype, rfl⟩
        · rintro ⟨rfl | hmem, hsame, -, rfl⟩
          · exact ⟨rfl, rfl⟩
          · exact absurd hsame (hother hmem)
      · simp only [goliothSettingsReceiveOne, hkey, if_true, htype, ne_eq, not_false_eq_true,
          SettingReceived.callback, reduceCtorEq, List.mem_cons, false_iff]
        rintro ⟨rfl | hmem, hsame, hright, -⟩
        · exact htype hright
        · exact hother hmem hsame
    · simp only [goliothSettingsReceiveOne, hkey, if_false, ih hkeys.2, List.mem_cons]
      constructor
      · rintro ⟨hmem, hrest⟩
        exact ⟨Or.inr hmem, hrest⟩
      · rintro ⟨rfl | hmem, hsame, hright⟩
        · exact absurd hsame hkey
        · exact ⟨hmem, hsame, hright⟩

/-- A callback is named by the label itself. -/
theorem namedHandler_iff (hkeys : (handlers.map GoliothSettingsHandler.key).Nodup) :
    namedHandler handlers label data = some (setting, data') ↔
      setting ∈ handlers ∧ setting.key.chars = label ∧ setting.type = data.type ∧ data' = data := by
  simp only [namedHandler, Option.map_eq_some_iff, Prod.mk.injEq]
  constructor
  · rintro ⟨found, hfind, rfl, rfl⟩
    have hname := List.find?_some hfind
    simp only [Bool.and_eq_true, decide_eq_true_eq] at hname
    exact ⟨List.mem_of_find?_eq_some hfind, hname.1, hname.2, rfl⟩
  · rintro ⟨hmem, hlabel, htype, rfl⟩
    have hsome : (handlers.find? fun setting =>
        decide (setting.key.chars = label) && decide (setting.type = data'.type)).isSome := by
      rw [List.find?_isSome]
      exact ⟨setting, hmem, by simp [hlabel, htype]⟩
    obtain ⟨found, hfind⟩ := Option.isSome_iff_exists.mp hsome
    have hname := List.find?_some hfind
    simp only [Bool.and_eq_true, decide_eq_true_eq] at hname
    have hsame : found.key = setting.key := cString_eq_of_chars (hname.1.trans hlabel.symm)
    exact ⟨found, hfind,
      List.inj_on_of_nodup_map hkeys (List.mem_of_find?_eq_some hfind) hmem hsame, rfl⟩

/- A label that the copy keeps, or one that neither itself nor as it is cut is the key of a
   handler for the type of the value. -/
def LabelKept (handlers : List GoliothSettingsHandler) (label : Buf) (data : SettingData) : Prop :=
  (label.length ≤ goliothSettingsMaxNameLen ∧ 0 ∉ label) ∨
    ∀ setting ∈ handlers, setting.type = data.type →
      setting.key.chars ≠ label ∧ setting.key ≠ cString (label.take goliothSettingsMaxNameLen)

/-- The copy of a label is the label exactly if that fits and is a C string. -/
theorem cString_take_eq_iff (label : Buf) :
    (cString (label.take goliothSettingsMaxNameLen)).chars = label ↔
      label.length ≤ goliothSettingsMaxNameLen ∧ 0 ∉ label := by
  constructor
  · intro h
    constructor
    · have hlen := (List.takeWhile_prefix
        (p := fun c => decide (c ≠ 0)) (l := label.take goliothSettingsMaxNameLen)).length_le
      have hchars : ((label.take goliothSettingsMaxNameLen).takeWhile
        (fun c => decide (c ≠ 0))).length = label.length := congrArg List.length h
      rw [hchars, List.length_take] at hlen
      omega
    · rw [← h]
      exact (cString (label.take goliothSettingsMaxNameLen)).no_nul
  · rintro ⟨hlen, hnul⟩
    rw [List.take_of_length_le hlen, cString_eq_self hnul]

theorem callback_eq_named_iff (hkeys : (handlers.map GoliothSettingsHandler.key).Nodup)
    (label : Buf) (data : SettingData) :
    (goliothSettingsReceiveOne handlers ⟨label.take goliothSettingsMaxNameLen, data⟩).callback =
      namedHandler handlers label data ↔ LabelKept handlers label data := by
  constructor
  · intro heq
    by_cases hkept : label.length ≤ goliothSettingsMaxNameLen ∧ 0 ∉ label
    · exact Or.inl hkept
    · right
      intro setting hmem htype
      -- either key would be the label and what is left of it at once
      constructor
      · intro hlabel
        have hnamed : namedHandler handlers label data = some (setting, data) :=
          (namedHandler_iff hkeys).mpr ⟨hmem, hlabel, htype, rfl⟩
        have hcut := ((receiveOne_callback_iff hkeys _).mp (heq.trans hnamed)).2.1
        exact hkept ((cString_take_eq_iff label).mp (by rw [← hcut, hlabel]))
      · intro hcut
        have hnamed := heq.symm.trans ((receiveOne_callback_iff hkeys _).mpr ⟨hmem, hcut, htype, rfl⟩)
        have hlabel := ((namedHandler_iff hkeys).mp hnamed).2.1
        exact hkept ((cString_take_eq_iff label).mp (by rw [← hcut, hlabel]))
  · intro hkept
    apply Option.ext
    rintro ⟨setting, data'⟩
    rw [receiveOne_callback_iff hkeys, namedHandler_iff hkeys]
    obtain hshort | hnone := hkept
    · have hchars := (cString_take_eq_iff label).mpr hshort
      have hkey : setting.key = cString (label.take goliothSettingsMaxNameLen) ↔
          setting.key.chars = label := by
        constructor
        · intro h
          rw [h, hchars]
        · intro h
          exact cString_eq_of_chars (h.trans hchars.symm)
      rw [hkey]
    · constructor
      · rintro ⟨hmem, hcut, htype, -⟩
        exact absurd hcut (hnone setting hmem htype).2
      · rintro ⟨hmem, hlabel, htype, -⟩
        exact absurd hlabel (hnone setting hmem htype).1

end

/-- The calls of a map are those that its pairs name exactly if this is so for each pair. -/
theorem callbacks_eq_iff {handlers : List GoliothSettingsHandler}
    (hkeys : (handlers.map GoliothSettingsHandler.key).Nodup) (pairs : List SettingPair) :
    (pairs.filterMap SettingPair.received).map
        (fun value => (goliothSettingsReceiveOne handlers value).callback) =
      pairs.filterMap (fun p => p.item.data.map (namedHandler handlers p.label)) ↔
    ∀ p ∈ pairs, ∀ data, p.item.data = some data → LabelKept handlers p.label data := by
  induction pairs with
  | nil => simp
  | cons p pairs ih =>
    rw [List.forall_mem_cons, ← ih]
    cases hitem : p.item.data with
    | none => simp [SettingPair.received, hitem]
    | some data => simp [SettingPair.received, hitem, callback_eq_named_iff hkeys]

/-- Settings reach the handlers that they name, and no others, exactly if every label whose
value is handed on is kept by the copy, or makes no difference to the handlers there are. -/
theorem settings_reach_named_iff {lib : Zcbor} {mem : Memory} (handlers : List GoliothSettingsHandler)
    (hkeys : (handlers.map GoliothSettingsHandler.key).Nodup) (pairs : List SettingPair)
    (d : Decoder Settings) (zsd : ZcborState) (after : Nat)
    (hlies : SettingsLie lib mem d.zsd zsd pairs after) (fuel : Nat) (hfuel : pairs.length < fuel) :
    SettingsReachNamed lib mem fuel handlers pairs d ↔
      ∀ p ∈ pairs, ∀ data, p.item.data = some data → LabelKept handlers p.label data := by
  obtain ⟨d', hdecode, hreceived⟩ := hlies.decodes hfuel
  have hdelivered : SettingsReachNamed lib mem fuel handlers pairs d ↔
      (pairs.filterMap SettingPair.received).map
        (fun value => (goliothSettingsReceiveOne handlers value).callback) =
      pairs.filterMap fun p => p.item.data.map (namedHandler handlers p.label) := by
    constructor
    · rintro ⟨d'', received, hdecode', hreceived', hcalls⟩
      cases hdecode.symm.trans hdecode'
      rw [List.append_cancel_left (hreceived.symm.trans hreceived')]
      exact hcalls
    · exact fun hcalls => ⟨d', _, hdecode, hreceived, hcalls⟩
  rw [hdelivered, callbacks_eq_iff hkeys]

section
variable {mem : Memory} {payloadEnd start : Nat}

/-- A pair with a small integer, for the library that reads short heads. -/
theorem short_setting_int (address n : Nat)
    (hhead : ∀ z, z.At start payloadEnd → shortHead mem z = some (.tstr, n, address))
    (hlt : address + n < payloadEnd) (hbyte : (mem (address + n)).toNat < 24) :
    SettingPair.Lies (shortZcbor mem) mem payloadEnd
      ⟨mem.bytesAt address n, .int (mem (address + n)).toNat, start, address + n, address + n + 1⟩ where
  label := by
    refine ⟨⟨address, n⟩, rfl, fun z hat => ?_⟩
    exact short_tstr (hhead z hat) rfl (by rw [hat.payloadEnd]; exact hlt.le)
  item z hat := by
    constructor
    · left
      rw [hat.payload]
      simp only [zcborMajorType, Nat.div_eq_of_lt (Nat.lt_trans hbyte (by decide : 24 < 32))]
    · rw [short_int32 hat hlt hbyte, if_pos (by omega)]
  skipped z hat := short_skip hat hlt hbyte

theorem short_settings_stop {zsd last : ZcborState} (hcontext : zsd.SameContext last)
    (hdefinite : zsd.indefinite = false) (hbackups : zsd.backups ≠ []) (hzero : last.elemCount = 0) :
    (shortZcbor mem).mapEndDecode last ≠ none := by
  have hlast := hcontext.indefinite.trans hdefinite
  rw [← hcontext.backups] at hbackups
  obtain ⟨frame, frames, hframes⟩ := List.exists_cons_of_ne_nil hbackups
  simp [shortZcbor, hlast, hzero, shortEnd, hframes]

end

def twoSettings : Memory := memoryAt ramBase [0xA2, 0x61, 0x61, 5, 0x61, 0x62, 7]
def twoHandlers : List GoliothSettingsHandler :=
  [⟨cString [0x61], .int⟩, ⟨cString [0x62], .string⟩]
def twoPairs : List SettingPair :=
  [⟨[0x61], .int 5, ramBase + 1, ramBase + 3, ramBase + 4⟩,
    ⟨[0x62], .int 7, ramBase + 4, ramBase + 6, ramBase + 7⟩]

theorem settings_reach_named_two :
    SettingsReachNamed (shortZcbor twoSettings) twoSettings 3 twoHandlers twoPairs
      ⟨zcborStateD 1 ramBase 7, [], .boot⟩ := by
  have hfirst : SettingPair.Lies (shortZcbor twoSettings) twoSettings (ramBase + 7)
      ⟨[0x61], .int 5, ramBase + 1, ramBase + 3, ramBase + 4⟩ :=
    short_setting_int (ramBase + 2) 1
      (fun z hat => shortHead_one hat (by decide) (by decide)) (by decide) (by decide)
  have hsecond : SettingPair.Lies (shortZcbor twoSettings) twoSettings (ramBase + 7)
      ⟨[0x62], .int 7, ramBase + 4, ramBase + 6, ramBase + 7⟩ :=
    short_setting_int (ramBase + 5) 1
      (fun z hat => shortHead_one hat (by decide) (by decide)) (by decide) (by decide)
  have hlies : SettingsLie (shortZcbor twoSettings) twoSettings (zcborStateD 1 ramBase 7)
      ⟨ramBase + 1, ramBase + 7, 4, false, [(0, false)], 1⟩ twoPairs (ramBase + 7) :=
    { map := by decide
      start := by decide
      payloadEnd := rfl
      definite := ⟨rfl, rfl⟩
      chain := ⟨rfl, rfl, rfl⟩
      lies := List.forall_mem_cons.mpr ⟨hfirst, List.forall_mem_cons.mpr ⟨hsecond, by simp⟩⟩
      stop := fun last hcontext _ hzero => short_settings_stop hcontext rfl (by simp) hzero }
  refine (settings_reach_named_iff twoHandlers (by decide) twoPairs
    ⟨zcborStateD 1 ramBase 7, [], .boot⟩ _ _ hlies 3 (by decide)).mpr ?_
  intro p hp data _
  left
  simp only [twoPairs, List.mem_cons, List.not_mem_nil, or_false] at hp
  obtain rfl | rfl := hp <;> decide

def longLabel : Buf := List.replicate 31 0x61++[0x62]
def longSetting : Memory := memoryAt ramBase ([0xA1, 0x78, 0x20]++longLabel++[5])
def longPair : SettingPair := ⟨longLabel, .int 5, ramBase + 1, ramBase + 35, ramBase + 36⟩
def shortHandler : GoliothSettingsHandler := ⟨⟨List.replicate 31 0x61, by decide⟩, .int⟩

theorem long_label_reaches_other_handler :
    SettingsLie (shortZcbor longSetting) longSetting (zcborStateD 1 ramBase 36)
      ⟨ramBase + 1, ramBase + 36, 2, false, [(0, false)], 1⟩ [longPair] (ramBase + 36) ∧
    ((settingsDecode (shortZcbor longSetting) longSetting 2
      ⟨zcborStateD 1 ramBase 36, [], .boot⟩).map fun r => r.2.world.received.map
        fun value => goliothSettingsReceiveOne [shortHandler] value) =
      some [.called shortHandler (.int 5)] ∧
    ¬ SettingsReachNamed (shortZcbor longSetting) longSetting 2 [shortHandler] [longPair]
      ⟨zcborStateD 1 ramBase 36, [], .boot⟩ := by
  have hpair : SettingPair.Lies (shortZcbor longSetting) longSetting (ramBase + 36) longPair :=
    short_setting_int (ramBase + 3) 32
      (fun z hat => shortHead_two hat (by decide) (by decide)) (by decide) (by decide)
  have hcalls : ((settingsDecode (shortZcbor longSetting) longSetting 2
      ⟨zcborStateD 1 ramBase 36, [], .boot⟩).map fun r => r.2.world.received.map
        fun value => goliothSettingsReceiveOne [shortHandler] value) =
      some [.called shortHandler (.int 5)] := by decide +kernel
  refine ⟨?_, hcalls, ?_⟩
  · exact
      { map := by decide
        start := by decide
        payloadEnd := rfl
        definite := ⟨rfl, rfl⟩
        chain := ⟨rfl, rfl⟩
        lies := List.forall_mem_singleton.mpr hpair
        stop := fun last hcontext _ hzero => short_settings_stop hcontext rfl (by simp) hzero }
  · rintro ⟨d', received, hdecode, hreceived, hnamed⟩
    rw [hdecode] at hcalls
    have hall : d'.world.received = received := by simpa [Settings.boot] using hreceived
    have hcall : received.map (fun value => goliothSettingsReceiveOne [shortHandler] value) =
        [.called shortHandler (.int 5)] := by simpa [hall] using hcalls
    have hcallback := congrArg (List.map SettingReceived.callback) hcall
    rw [List.map_map] at hcallback
    exact absurd (hnamed.symm.trans hcallback) (by decide)

end Pouch
