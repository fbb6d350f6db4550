import PouchNode.OtaStream
import PouchNode.ZcborMap

/-! Decoding of a manifest (ota_receive_manifest in golioth_sdk/ota.c). Each component is
handed to the upper half as soon as it has been decoded, whatever comes behind it. -/
namespace Pouch
open Loop

def goliothOtaComponentHashHexLen : Nat := 64

structure ComponentDraft where
  package : Buf
  version : Buf
  hashStr : Buf
  size : Int

/- What is given: zcbor and the memory it decodes, hex2bin of a whole hash, and what the stack
   holds in the variables that are not initialised, when the loop comes to an address. -/
structure ManifestEnv where
  lib : Zcbor
  mem : Memory
  hex2bin : Buf → Option (Vector UInt8 32)
  key : Nat → ZcborMapKey
  hashStr : Nat → Vector UInt8 (goliothOtaComponentHashHexLen + 1)

section
variable (env : ManifestEnv) (cfg : OtaConfig)

def putText (array text : Buf) : Buf := text++0 :: array.drop (text.length + 1)

def componentEntryDecodeValue (valueLen : Nat) (store : Buf → ComponentDraft → ComponentDraft)
    (d : Decoder ComponentDraft) : DecodeRet × Decoder ComponentDraft :=
  match env.lib.tstrDecode d.zsd with
  | none => (.err .ebadmsg, d)
  | some (tstr, zsd) =>
    if valueLen < tstr.len then (.err .enomem, { d with zsd })
    else (.ok, { d with zsd, world := store (env.mem.bytesAt tstr.value tstr.len) d.world })

def componentEntries : List (ZcborMapEntry ComponentDraft) :=
  [⟨.u32 1, fun d => some (componentEntryDecodeValue env cfg.maxPackageNameLen
      (fun text draft => { draft with package := putText draft.package text }) d)⟩,
    ⟨.u32 2, fun d => some (componentEntryDecodeValue env cfg.maxVersionLen
      (fun text draft => { draft with version := putText draft.version text }) d)⟩,
    ⟨.u32 4, fun d => some (zcborMapInt32Decode env.lib
      (fun size draft => { draft with size }) d)⟩,
    ⟨.u32 3, fun d => some (componentEntryDecodeValue env goliothOtaComponentHashHexLen
      (fun text draft => { draft with hashStr := putText draft.hashStr text }) d)⟩]

def newDraft (address : Nat) : ComponentDraft where
  package := List.replicate (cfg.maxPackageNameLen + 1) 0
  version := List.replicate (cfg.maxVersionLen + 1) 0
  hashStr := (env.hashStr address).toList
  size := 0

def ComponentDraft.component (draft : ComponentDraft) (hash : Vector UInt8 32) :
    GoliothOtaComponent :=
  ⟨cString draft.package, cString draft.version, hash, draft.size⟩

def Decoder.withWorld {ω ψ : Type*} (d : Decoder ω) (world : ψ) : Decoder ψ :=
  ⟨d.zsd, d.looked, world⟩

structure ManifestLoop where
  decoder : Decoder Unit
  calls : List ManifestCall

def manifestKeyComponents : UInt32 := 3

/- One round of the loop over the components. It ends at the end of the list, or early. -/
def componentsStep (fuel : Nat) (s : ManifestLoop) :
    Option (ManifestLoop ⊕ Bool × ManifestLoop) :=
  let (ended, d) := zcborListOrMapEnd env.mem s.decoder
  if ended then some (.inr (true, { s with decoder := d }))
  else
    let address := d.zsd.payload
    match zcborMapDecode env.lib env.mem (componentEntries env cfg) fuel (env.key address)
        (d.withWorld (newDraft env cfg address)) with
    | none => none
    | some (.err _, map) => some (.inr (false, { s with decoder := map.decoder.withWorld () }))
    | some (.ok, map) =>
      let draft := map.decoder.world
      match env.hex2bin (draft.hashStr.take goliothOtaComponentHashHexLen) with
      | none => some (.inr (false, { s with decoder := map.decoder.withWorld () }))
      | some hash => some (.inl ⟨map.decoder.withWorld (),
          s.calls++[.receiveOne (draft.component hash)]⟩)

/- One round of the outer loop. The list of components is never ended: the decoder stays in
   it. -/
def manifestStep (fuel : Nat) (s : ManifestLoop) : Option (ManifestLoop ⊕ ManifestLoop) :=
  let (ended, d) := zcborListOrMapEnd env.mem s.decoder
  if ended then some (.inr { s with decoder := d })
  else
    match env.lib.uint32Decode d.zsd with
    | none => some (.inr { s with decoder := d })
    | some (key, zsd) =>
      if key = manifestKeyComponents then
        match env.lib.listStartDecode zsd with
        | none => some (.inr { s with decoder := { d with zsd } })
        | some zsd =>
          match run (componentsStep env cfg fuel) fuel { s with decoder := { d with zsd } } with
          | none => none
          | some (false, s) => some (.inr s)
          | some (true, s) =>
            let (ended, d) := zcborListOrMapEnd env.mem s.decoder
            let s : ManifestLoop := ⟨d, s.calls++[.complete]⟩
            if ended then some (.inl s) else some (.inr s)
      else
        match env.lib.anySkip zsd with
        | none => some (.inr { s with decoder := { d with zsd } })
        | some zsd => some (.inl { s with decoder := { d with zsd } })

def otaManifestDecode (fuel address len : Nat) : Option ManifestLoop :=
  let d : Decoder Unit := ⟨zcborStateD 3 address len, [], ()⟩
  match env.lib.mapStartDecode d.zsd with
  | none => some ⟨d, []⟩
  | some zsd => run (manifestStep env cfg fuel) fuel ⟨{ d with zsd }, []⟩

end

section
variable (cfg : OtaConfig) {components : List RegisteredComponent}

def latest (decoded : List GoliothOtaComponent) (name : CString) : Option GoliothOtaComponent :=
  decoded.reverse.find? fun component => decide (component.package = name)

end

def hexZeros : Buf := List.replicate 64 0x30
def componentBytes : Buf :=
  [0xA4, 0x01, 0x61, 0x61, 0x02, 0x61, 0x32, 0x03, 0x78, 0x40]++hexZeros++[0x04, 0x00]
def brokenManifest : Buf := [0xA1, 0x03, 0x82]++componentBytes++[0x07]

def manifestEnv (bytes : Buf) : ManifestEnv where
  lib := shortZcbor (memoryAt ramBase bytes)
  mem := memoryAt ramBase bytes
  hex2bin text := if text = hexZeros then some (Vector.replicate 32 0) else none
  key _ := ⟨.u32, 0, 0⟩
  hashStr _ := Vector.replicate _ 0

def componentA2 : GoliothOtaComponent := ⟨pathA, ⟨[0x32], by decide⟩, Vector.replicate 32 0, 0⟩

deriving instance DecidableEq for GoliothOtaComponent
deriving instance DecidableEq for ManifestCall

end Pouch
