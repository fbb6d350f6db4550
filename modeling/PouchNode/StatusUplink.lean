import PouchNode.OtaStream
import PouchNode.Settings
import PouchNode.Lib.Cbor

/-! The reports of the services: ota_uplink in golioth_sdk/ota.c with golioth_ota_get_status in
golioth_sdk/ota_upper.c, and settings_uplink in golioth_sdk/settings.c. Each report is encoded
in 64 bytes. This is enough for the version of the settings, but not for every component, since
the lengths of names and versions are configured; the first component that does not fit ends the
reports of all. zcbor puts items in their shortest form (CONFIG_ZCBOR_CANONICAL), and fails if
they do not fit. -/
namespace Pouch
open Loop

structure OtaStatus where
  name : CString
  currentVersion : CString
  targetVersion : CString
  state : GoliothOtaState
  deriving DecidableEq

def GoliothOtaState.value : GoliothOtaState → Nat
  | .idle => 0
  | .downloading => 1
  | .downloaded => 2
  | .updating => 3

section
variable {components : List RegisteredComponent}

def otaStatus (s : Ota components.length) (i : Fin components.length) : OtaStatus where
  name := (components.get i).name
  currentVersion := (components.get i).version
  targetVersion := cString (s.data i).target
  state := (s.data i).state

def goliothOtaGetStatus (s : Ota components.length) (componentIdx : Nat) : Option OtaStatus :=
  if h : componentIdx < components.length then some (otaStatus s ⟨componentIdx, h⟩) else none

end

def encodeBufLen : Nat := 64

/- What the calls of zcbor put, in order: the head of the map, made for one pair, and the keys
   "s", "r", "pkg", "v" and "t" with their values. -/
def OtaStatus.encodeCalls (status : OtaStatus) : List Buf :=
  [Cbor.head 5 1,
    Cbor.tstr [0x73], Cbor.uint status.state.value,
    Cbor.tstr [0x72], Cbor.uint 0,
    Cbor.tstr [0x70, 0x6B, 0x67], Cbor.tstr status.name.chars,
    Cbor.tstr [0x76], Cbor.tstr status.currentVersion.chars]++
  if status.state = .idle then [] else [Cbor.tstr [0x74], Cbor.tstr status.targetVersion.chars]

def zcborMapEndEncode (pairs : Nat) (buf : Buf) : Buf := Cbor.head 5 pairs++buf.drop 1

def OtaStatus.encode (status : OtaStatus) : Option Buf :=
  (Cbor.putAll encodeBufLen [] status.encodeCalls).map
    (zcborMapEndEncode ((status.encodeCalls.length - 1)/2))

def goliothOtaComponentPathPrefix : Buf := [0x2E, 0x75, 0x2F, 0x63, 0x2F]
def pouchContentTypeCbor : UInt16 := 60

section
variable (cfg : OtaConfig) {components : List RegisteredComponent}

/- The array is full of zeros behind what strncpy leaves. -/
def otaUplinkPath (name : CString) : CString :=
  cString (goliothOtaComponentPathPrefix++name.chars.take cfg.maxPackageNameLen)

def otaUplinkStep (s : Ota components.length) (loop : Nat × List PouchEntry) :
    Option ((Nat × List PouchEntry) ⊕ List PouchEntry) :=
  match goliothOtaGetStatus s loop.1 with
  | none => some (.inr loop.2)
  | some status =>
    match status.encode with
    | none => some (.inr loop.2)
    | some data =>
      some (.inl (loop.1 + 1,
        loop.2++[⟨otaUplinkPath cfg status.name, pouchContentTypeCbor, data⟩]))

def otaUplink (s : Ota components.length) : Option (List PouchEntry) :=
  run (otaUplinkStep cfg s) (components.length + 1) (0, [])

end

def OtaStatus.pairs (status : OtaStatus) : List (Buf × Buf) :=
  [(Cbor.tstr [0x73], Cbor.uint status.state.value), (Cbor.tstr [0x72], Cbor.uint 0),
    (Cbor.tstr [0x70, 0x6B, 0x67], Cbor.tstr status.name.chars),
    (Cbor.tstr [0x76], Cbor.tstr status.currentVersion.chars)]++
  if status.state = .idle then [] else [(Cbor.tstr [0x74], Cbor.tstr status.targetVersion.chars)]

def OtaStatus.encoding (status : OtaStatus) : Buf := Cbor.map status.pairs

def textLen (s : CString) : Nat := Cbor.headLen (strlen s) + strlen s

def OtaStatus.size (status : OtaStatus) : Nat :=
  13 + textLen status.name + textLen status.currentVersion +
    if status.state = .idle then 0 else 2 + textLen status.targetVersion

def reportPath (name : CString) : CString where
  chars := goliothOtaComponentPathPrefix++name.chars
  no_nul := by
    rw [List.mem_append, not_or]
    exact ⟨by decide, name.no_nul⟩

def OtaStatus.entry (status : OtaStatus) : PouchEntry where
  path := reportPath status.name
  contentType := pouchContentTypeCbor
  data := status.encoding

theorem GoliothOtaState.value_lt (state : GoliothOtaState) : state.value < 24 := by
  cases state <;> decide

theorem OtaStatus.encodeCalls_flatten (status : OtaStatus) :
    status.encodeCalls.flatten =
      Cbor.head 5 1++status.pairs.flatMap (fun p => p.1++p.2) ∧
    (status.encodeCalls.length - 1)/2 = status.pairs.length := by
  by_cases hidle : status.state = .idle <;> simp [encodeCalls, pairs, hidle]

theorem OtaStatus.length_encodeCalls (status : OtaStatus) :
    status.encodeCalls.flatten.length = status.size := by
  have hstate : Cbor.headLen status.state.value = 1 := Cbor.headLen_small status.state.value_lt
  have hone : Cbor.headLen 1 = 1 := Cbor.headLen_small (by decide)
  have hthree : Cbor.headLen 3 = 1 := Cbor.headLen_small (by decide)
  have hzero : Cbor.headLen 0 = 1 := Cbor.headLen_small (by decide)
  by_cases hidle : status.state = .idle
  · rw [hidle] at hstate
    simp [encodeCalls, size, textLen, strlen, hidle, hstate, hone, hthree, hzero]
    omega
  · simp [encodeCalls, size, textLen, strlen, hidle, hstate, hone, hthree, hzero]
    omega

/-- A status is encoded exactly if it fits, and then to the map that it is. -/
theorem OtaStatus.encode_eq (status : OtaStatus) :
    status.encode = if status.size ≤ encodeBufLen then some status.encoding else none := by
  obtain ⟨hcalls, hpairs⟩ := status.encodeCalls_flatten
  have hlen := status.length_encodeCalls
  have hput := Cbor.putAll_eq [] (Nat.zero_le encodeBufLen) status.encodeCalls
  rw [OtaStatus.encode, hput, List.length_nil, Nat.zero_add, hlen, hpairs, hcalls]
  split
  · rfl
  · rfl

section
variable {cfg : OtaConfig} {components : List RegisteredComponent} {s : Ota components.length}

theorem otaUplinkPath_short {name : CString} (h : strlen name ≤ cfg.maxPackageNameLen) :
    otaUplinkPath cfg name = reportPath name := by
  rw [otaUplinkPath, List.take_of_length_le h]
  exact cString_chars (reportPath name)

/- The components from an index on whose status fits, up to the first whose status does not. -/
def reportedFrom (s : Ota components.length) (idx : Nat) : List (Fin components.length) :=
  ((List.finRange components.length).drop idx).takeWhile fun i =>
    decide ((otaStatus s i).size ≤ encodeBufLen)

theorem otaUplinkStep_eq (hnames : ∀ i, strlen (components.get i).name ≤ cfg.maxPackageNameLen)
    (idx : Nat) (written : List PouchEntry) :
    (reportedFrom s idx = [] ∧ otaUplinkStep cfg s (idx, written) = some (.inr written)) ∨
    ∃ i, reportedFrom s idx = i :: reportedFrom s (idx + 1) ∧ idx < components.length ∧
      otaUplinkStep cfg s (idx, written) = some (.inl (idx + 1, written++[(otaStatus s i).entry])) := by
  by_cases hidx : idx < components.length
  · have hdrop : (List.finRange components.length).drop idx =
        ⟨idx, hidx⟩ :: (List.finRange components.length).drop (idx + 1) := by
      rw [List.drop_eq_getElem_cons (by simpa using hidx)]
      simp
    by_cases hfits : (otaStatus s ⟨idx, hidx⟩).size ≤ encodeBufLen
    · right
      refine ⟨⟨idx, hidx⟩, ?_, hidx, ?_⟩
      · simp only [reportedFrom, hdrop, List.takeWhile_cons, hfits, decide_true, if_true]
      · simp only [otaUplinkStep, goliothOtaGetStatus, hidx, dif_pos, OtaStatus.encode_eq, hfits,
          if_true]
        have hpath := otaUplinkPath_short (hnames ⟨idx, hidx⟩)
        simp only [OtaStatus.entry, otaStatus] at hpath ⊢
        rw [hpath]
    · left
      constructor
      · simp only [reportedFrom, hdrop, List.takeWhile_cons, hfits, decide_false, Bool.false_eq_true,
          if_false]
      · simp only [otaUplinkStep, goliothOtaGetStatus, hidx, dif_pos, OtaStatus.encode_eq, hfits,
          if_false]
  · left
    constructor
    · rw [reportedFrom, List.drop_eq_nil_of_le (by simpa using Nat.le_of_not_lt hidx)]
      rfl
    · simp only [otaUplinkStep, goliothOtaGetStatus, hidx, dif_neg, not_false_eq_true]

/-- The loop reports components up to the first whose status does not fit. -/
theorem otaUplink_run (hnames : ∀ i, strlen (components.get i).name ≤ cfg.maxPackageNameLen)
    (fuel idx : Nat) (written : List PouchEntry) (hfuel : components.length < idx + fuel) (hpos : 0 < fuel) :
    run (otaUplinkStep cfg s) fuel (idx, written) =
      some (written++(reportedFrom s idx).map fun i => (otaStatus s i).entry) := by
  induction fuel generalizing idx written with
  | zero => cases hpos
  | succ fuel ih =>
    obtain ⟨hnone, hstep⟩ | ⟨i, hnext, hidx, hstep⟩ := otaUplinkStep_eq (s := s) hnames idx written
    · rw [run_inr hstep (Nat.succ_pos fuel), hnone]
      simp
    · rw [run_inl hstep (Nat.succ_pos fuel), Nat.succ_sub_one, ih (idx + 1) _ (by omega) (by omega), hnext]
      simp

/-- Every component is reported, once, in order, exactly if the status of each of them fits
into the buffer. -/
theorem ota_uplink_reports_iff (cfg : OtaConfig) (components : List RegisteredComponent)
    (hnames : ∀ i, strlen (components.get i).name ≤ cfg.maxPackageNameLen) (s : Ota components.length) :
    otaUplink cfg s = some (List.ofFn fun i => (otaStatus s i).entry) ↔
      ∀ i, (otaStatus s i).size ≤ encodeBufLen := by
  have hrun := otaUplink_run (s := s) hnames (components.length + 1) 0 [] (by omega) (Nat.succ_pos _)
  rw [otaUplink, hrun, List.nil_append, Option.some_inj, List.ofFn_eq_map]
  constructor
  · intro heq
    have hlen := congrArg List.length heq
    rw [List.length_map, List.length_map] at hlen
    have hall : reportedFrom s 0 = List.finRange components.length :=
      (List.takeWhile_prefix _).eq_of_length hlen
    intro i
    have hi := List.takeWhile_eq_self_iff.mp hall i (List.mem_finRange i)
    exact of_decide_eq_true hi
  · intro hfits
    have hall : reportedFrom s 0 = List.finRange components.length :=
      List.takeWhile_eq_self_iff.mpr fun i _ => decide_eq_true (hfits i)
    rw [hall]

end

/-- Two components with short names, as they are registered. -/
theorem ota_uplink_reports_short :
    otaUplink otaDefaults (Ota.boot otaDefaults (oneComponent++oneComponent)) =
      some (List.ofFn fun i =>
        (otaStatus (Ota.boot otaDefaults (oneComponent++oneComponent)) i).entry) :=
  (ota_uplink_reports_iff otaDefaults (oneComponent++oneComponent) (by decide) _).mpr (by decide)

def longAndShort : List RegisteredComponent :=
  ⟨⟨List.replicate 32 0x61, by decide⟩, ⟨List.replicate 32 0x31, by decide⟩⟩ :: oneComponent

/-- A name and a version of 32 bytes do not fit, and the component behind, which would, is not
reported either. -/
theorem long_status_ends_reports :
    (∀ c ∈ longAndShort, strlen c.name ≤ otaDefaults.maxPackageNameLen ∧
      strlen c.version ≤ otaDefaults.maxVersionLen) ∧
    otaUplink otaDefaults (Ota.boot otaDefaults longAndShort) = some [] ∧
    (otaStatus (Ota.boot otaDefaults longAndShort) ⟨1, by decide⟩).size ≤ encodeBufLen ∧
    otaUplink otaDefaults (Ota.boot otaDefaults longAndShort) ≠
      some (List.ofFn fun i => (otaStatus (Ota.boot otaDefaults longAndShort) i).entry) := by
  decide

def settingsUplinkPath : CString :=
  ⟨[0x2E, 0x63, 0x2F, 0x73, 0x74, 0x61, 0x74, 0x75, 0x73], by decide⟩

def Settings.versionItem (settings : Settings) : Buf :=
  if 0 ≤ settings.version then Cbor.uint settings.version.toNat else [0xF6]

/- The call of pouch_uplink_entry_write, or none if a call of zcbor fails. The head of the map is
   made for two pairs. -/
def settingsUplink (settings : Settings) : Option PouchEntry :=
  (Cbor.putAll encodeBufLen []
    [Cbor.head 5 2, Cbor.tstr [0x76, 0x65, 0x72, 0x73, 0x69, 0x6F, 0x6E], settings.versionItem]).map
      fun buf => ⟨settingsUplinkPath, pouchContentTypeCbor, zcborMapEndEncode 1 buf⟩

/-- The version of the settings is always reported, as it is. -/
theorem settingsUplink_eq (settings : Settings) :
    settingsUplink settings = some
      { path := settingsUplinkPath
        contentType := pouchContentTypeCbor
        data := Cbor.map
          [(Cbor.tstr [0x76, 0x65, 0x72, 0x73, 0x69, 0x6F, 0x6E], settings.versionItem)] } := by
  have hitem : settings.versionItem.length ≤ 9 := by
    unfold Settings.versionItem
    split
    · rw [Cbor.length_uint]
      exact Cbor.headLen_le _
    · decide
  have hone : Cbor.headLen 2 = 1 := Cbor.headLen_small (by decide)
  have hkey : Cbor.headLen 7 = 1 := Cbor.headLen_small (by decide)
  have hfits : ([] : Buf).length + [Cbor.head 5 2, Cbor.tstr [0x76, 0x65, 0x72, 0x73, 0x69, 0x6F, 0x6E],
      settings.versionItem].flatten.length ≤ encodeBufLen := by
    simp [hone, hkey, encodeBufLen]
    omega
  rw [settingsUplink, Cbor.putAll_eq [] (Nat.zero_le encodeBufLen), if_pos hfits]
  simp [zcborMapEndEncode, Cbor.map, Cbor.head]

end Pouch
