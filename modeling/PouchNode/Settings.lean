import PouchNode.ZcborMap

/-! Decoding of settings (settings_decode and settings_downlink in golioth_sdk/settings.c). The
calls of golioth_settings_receive_one are kept, in order. -/
namespace Pouch
open Loop

def goliothSettingsMaxNameLen : Nat := 31

inductive SettingData where
  | string (data : Buf)
  | int (n : Int)
  | float (bits : UInt64)
  | bool (b : Bool)
  deriving DecidableEq

structure SettingValue where
  key : Buf
  data : SettingData
  deriving DecidableEq

structure Settings where
  version : Int
  received : List SettingValue

def Settings.boot : Settings := ⟨-1, []⟩

section
variable (lib : Zcbor) (mem : Memory)

def settingValueDecode (z : ZcborState) : Option (SettingData × ZcborState) :=
  match zcborMajorType (mem z.payload) with
  | .tstr => (lib.tstrDecode z).map fun (str, z) => (.string (mem.bytesAt str.value str.len), z)
  | .pint | .nint => (lib.int32Decode z).map fun (n, z) => (.int n, z)
  | .simple =>
    match lib.floatDecode z with
    | some (bits, z) => some (.float bits, z)
    | none => (lib.boolDecode z).map fun (b, z) => (.bool b, z)
  | _ => none

def settingDecode (label : ZcborString) (z : ZcborState) (settings : Settings) :
    Option (ZcborState × Settings) :=
  match settingValueDecode lib mem z with
  | some (data, z) =>
    let key := mem.bytesAt label.value (min goliothSettingsMaxNameLen label.len)
    some (z, { settings with received := settings.received++[⟨key, data⟩] })
  | none => (lib.anySkip z).map fun z => (z, settings)

def settingsStep (d : Decoder Settings) :
    Option (Decoder Settings ⊕ Option DecodeErrno × Decoder Settings) :=
  let (ended, d) := zcborListOrMapEnd mem d
  if ended then some (.inr (none, d))
  else
    match lib.tstrDecode d.zsd with
    | none => some (.inr (some .ebadmsg, d))
    | some (label, zsd) =>
      let d := Decoder.look { d with zsd }
      match settingDecode lib mem label zsd d.world with
      | none => some (.inr (some .ebadmsg, d))
      | some (zsd, world) => some (.inl { d with zsd, world })

def settingsDecode (fuel : Nat) (d : Decoder Settings) : Option (DecodeRet × Decoder Settings) :=
  match lib.nilExpect d.zsd with
  | some zsd => some (.err .enoent, { d with zsd })
  | none =>
    match lib.mapStartDecode d.zsd with
    | none => some (.err .ebadmsg, d)
    | some zsd =>
      match run (settingsStep lib mem) fuel { d with zsd } with
      | none => none
      | some (some e, d) => some (.err e, d)
      | some (none, d) =>
        match lib.mapEndDecode d.zsd with
        | none => some (.err .ebadmsg, d)
        | some zsd => some (.ok, { d with zsd })

def settingsKey : EntryKey := .tstr [0x73, 0x65, 0x74, 0x74, 0x69, 0x6E, 0x67, 0x73]
def versionKey : EntryKey := .tstr [0x76, 0x65, 0x72, 0x73, 0x69, 0x6F, 0x6E]

def settingsEntries (fuel : Nat) : List (ZcborMapEntry Settings) :=
  [⟨settingsKey, settingsDecode lib mem fuel⟩,
    ⟨versionKey, fun d => some (zcborMapInt64Decode lib
      (fun version settings => { settings with version }) d)⟩]

/- The key of zcbor_map_decode is not initialised. -/
def settingsDownlink (fuel : Nat) (key : ZcborMapKey) (address len : Nat) (settings : Settings) :
    Option (DecodeRet × MapLoop Settings 2) :=
  zcborMapDecode lib mem (settingsEntries lib mem fuel) fuel key
    ⟨zcborStateD 2 address len, [], settings⟩

end
end Pouch
