import PouchNode.Dispatch

/-! The OTA service (golioth_sdk/ota.c, golioth_sdk/ota_upper.c) behind the dispatcher. One
record describes the component that is being downloaded; the registered components get the
fragments of their name while they are marked for download. -/
namespace Pouch

structure OtaConfig extends Config where
  maxPackageNameLen : Nat
  maxVersionLen : Nat
  /- The target version is an array of this length. -/
  maxVersionLen_pos : 0 < maxVersionLen

inductive GoliothOtaState where
  | idle | downloading | downloaded | updating
  deriving DecidableEq, Repr

structure RegisteredComponent where
  name : CString
  version : CString

structure RegisteredComponentData where
  target : Buf
  targetHash : Vector UInt8 32
  size : Nat
  state : GoliothOtaState

structure GoliothOtaComponent where
  package : CString
  version : CString
  hash : Vector UInt8 32
  size : Int

structure ComponentDownload where
  downlinkId : UInt32
  offset : Nat
  name : Buf
  version : Buf

structure Ota (n : Nat) where
  download : ComponentDownload
  data : Fin n → RegisteredComponentData

structure ReceiveCall (n : Nat) where
  component : Fin n
  data : Buf
  offset : Nat
  len : Nat
  isLast : Bool
  deriving DecidableEq

structure ManifestComponent where
  name : CString
  current : CString
  target : Buf
  targetHash : Vector UInt8 32
  size : Nat

inductive OtaCall (n : Nat) where
  | receive (call : ReceiveCall n)
  | manifest (components : List ManifestComponent)

inductive ManifestCall where
  | receiveOne (component : GoliothOtaComponent)
  | complete

inductive OtaFault where
  | nullRemainder | nameOverflow
  deriving DecidableEq, Repr

section
variable (cfg : OtaConfig) (components : List RegisteredComponent)

def Ota.boot : Ota components.length where
  download := ⟨downlinkIdInvalid, 0, [], []⟩
  data i :=
    { target := (components.get i).version.chars.take cfg.maxVersionLen
      targetHash := Vector.replicate 32 0
      size := 0
      state := .idle }

section Upper
variable {components}

def goliothOtaSetStatus (name : CString) (state : GoliothOtaState) (s : Ota components.length) :
    Bool × Ota components.length :=
  match Fin.find? fun i => decide ((components.get i).name = name) with
  | none => (false, s)
  | some i => (true, { s with data := Function.update s.data i { s.data i with state } })

def goliothOtaMarkForDownload (name : CString) (s : Ota components.length) :
    Bool × Ota components.length := goliothOtaSetStatus name .downloading s
def goliothOtaMarkIdle (name : CString) (s : Ota components.length) :
    Bool × Ota components.length := goliothOtaSetStatus name .idle s
def goliothOtaMarkUpdating (name : CString) (s : Ota components.length) :
    Bool × Ota components.length := goliothOtaSetStatus name .updating s

def goliothOtaManifestReceiveOne (component : GoliothOtaComponent) (s : Ota components.length) :
    Ota components.length :=
  { s with data := fun i =>
      if component.package = (components.get i).name then
        { s.data i with
          target := component.version.chars.take (cfg.maxVersionLen - 1)
          targetHash := component.hash
          size := (component.size % 2^cfg.sizeBits).toNat }
      else s.data i }

def goliothOtaManifestComplete (s : Ota components.length) : List ManifestComponent :=
  List.ofFn fun i =>
    { name := (components.get i).name
      current := (components.get i).version
      target := (s.data i).target
      targetHash := (s.data i).targetHash
      size := (s.data i).size }

/- The loop over the registered components. It ends at the first one of the name that is not
   marked for download. -/
def receiveLoop (s : Ota components.length) (name : Buf) (offset : Nat) (data : Buf) (len : Nat)
    (isLast : Bool) : List (Fin components.length) → Ret × List (OtaCall components.length)
  | [] => (.ok, [])
  | i :: rest =>
    if (components.get i).name.chars = name then
      if (s.data i).state = .downloading then
        let (ret, calls) := receiveLoop s name offset data len isLast rest
        (ret, .receive ⟨i, data, offset, len, isLast⟩ :: calls)
      else (.err .einval, [])
    else receiveLoop s name offset data len isLast rest

def goliothOtaReceiveComponent (s : Ota components.length) (name _version : Buf) (offset : Nat)
    (data : Buf) (len : Nat) (isLast : Bool) : Ret × List (OtaCall components.length) :=
  receiveLoop s name offset data len isLast (List.finRange components.length)

end Upper

section Lower
variable {components}

def otaReceiveManifest : List ManifestCall → Ota components.length →
    Ota components.length × List (OtaCall components.length)
  | [], s => (s, [])
  | .receiveOne component :: calls, s =>
    otaReceiveManifest calls (goliothOtaManifestReceiveOne cfg component s)
  | .complete :: calls, s =>
    let (t, out) := otaReceiveManifest calls s
    (t, .manifest (goliothOtaManifestComplete s) :: out)

/- strchr looks at the remainder, which may be NULL, and strncpy copies the name whatever its
   length. -/
def otaReceiveComponentStart (id : UInt32) (pathRemainder : Option Buf) (d : ComponentDownload) :
    Except OtaFault ComponentDownload :=
  match pathRemainder with
  | none => .error .nullRemainder
  | some remainder =>
    match remainder.idxOf? 0x40 with
    | none => .ok { d with downlinkId := downlinkIdInvalid }
    | some nameLen =>
      if cfg.maxPackageNameLen < nameLen then .error .nameOverflow
      else .ok
        { downlinkId := id
          offset := 0
          name := remainder.take nameLen
          version := (remainder.drop (nameLen + 1)).take cfg.maxVersionLen }

/- The offset advances whatever becomes of the fragment. -/
def otaReceiveComponentData (data : Buf) (len : Nat) (isLast : Bool) (s : Ota components.length) :
    Ota components.length × List (OtaCall components.length) :=
  if downlinkIdInvalid ≠ s.download.downlinkId then
    ({ s with download :=
        { s.download with offset := (s.download.offset + len) % 2^cfg.sizeBits } },
      (goliothOtaReceiveComponent s s.download.name s.download.version s.download.offset data len
        isLast).2)
  else (s, [])

end Lower

end

def componentPrefix : Buf := [0x2F, 0x2E, 0x75, 0x2F, 0x63, 0x2F]
def otaManifestPath : CString :=
  ⟨[0x2F, 0x2E, 0x75, 0x2F, 0x64, 0x65, 0x73, 0x69, 0x72, 0x65, 0x64], by decide⟩
def otaComponent : GoliothDownlinkService :=
  { path := ⟨componentPrefix++[0x2A], by decide⟩
    path_ne := by decide
    hasStartCb := true }
def otaManifest : GoliothDownlinkService :=
  { path := otaManifestPath
    path_ne := by decide
    hasStartCb := false }
def otaServices : List GoliothDownlinkService := [otaComponent, otaManifest]

section
variable (cfg : OtaConfig) {components : List RegisteredComponent}

def otaServiceCall (manifest : List ManifestCall) (s : Ota components.length) :
    ServiceCall otaServices.length →
      Except OtaFault (Ota components.length × List (OtaCall components.length))
  | .start service id pathRemainder =>
    if service.val = 0 then
      match otaReceiveComponentStart cfg id pathRemainder s.download with
      | .error fault => .error fault
      | .ok download => .ok ({ s with download }, [])
    else .ok (s, [])
  | .data service _ data len isLast =>
    if service.val = 0 then .ok (otaReceiveComponentData cfg data len isLast s)
    else .ok (otaReceiveManifest cfg manifest s)

def otaServiceCalls (manifest : List ManifestCall) :
    List (ServiceCall otaServices.length) → Ota components.length →
      Except OtaFault (Ota components.length × List (OtaCall components.length))
  | [], s => .ok (s, [])
  | call :: calls, s =>
    match otaServiceCall cfg manifest s call with
    | .error fault => .error fault
    | .ok (s, out) =>
      match otaServiceCalls manifest calls s with
      | .error fault => .error fault
      | .ok (s, rest) => .ok (s, out++rest)

end

structure OtaNode (n : Nat) where
  dispatch : Dispatch otaServices.length
  ota : Ota n

def OtaNode.boot (cfg : OtaConfig) (components : List RegisteredComponent) :
    OtaNode components.length := ⟨.boot _, .boot cfg components⟩

inductive OtaMark where
  | forDownload | idle | updating
  deriving DecidableEq, Repr

abbrev OtaStreamId := {id : UInt32 // id ≠ downlinkIdInvalid}

inductive OtaOp where
  | start (streamId : OtaStreamId) (path : CString) (contentType : UInt16)
  | data (streamId : OtaStreamId) (data : Buf) (isLast : Bool)
  | manifest (contentType : UInt16) (data : Buf) (calls : List ManifestCall)
  | mark (name : CString) (mark : OtaMark)

def componentPath (rest : CString) : CString :=
  ⟨componentPrefix++rest.chars, by
    rw [List.mem_append, not_or]
    exact ⟨by decide, rest.no_nul⟩⟩

section
variable (cfg : OtaConfig) {components : List RegisteredComponent}

def OtaNode.event (s : OtaNode components.length) (manifest : List ManifestCall)
    (call : HandlerCall) :
    OtaNode components.length × Except OtaFault (List (OtaCall components.length)) :=
  let (dispatch, calls) := dispatchStep otaServices s.dispatch call
  match otaServiceCalls cfg manifest calls s.ota with
  | .error fault => (s, .error fault)
  | .ok (ota, out) => (⟨dispatch, ota⟩, .ok out)

/- A manifest is an entry: it is started as stream 0, with all of its data right behind. -/
def otaStep (s : OtaNode components.length) :
    OtaOp → OtaNode components.length × Except OtaFault (List (OtaCall components.length))
  | .start streamId rest contentType =>
    s.event cfg [] (.start streamId (componentPath rest) contentType)
  | .data streamId data isLast => s.event cfg [] (.data streamId data data.length isLast)
  | .manifest contentType data calls =>
    let (s, _) := s.event cfg [] (.start 0 otaManifestPath contentType)
    s.event cfg calls (.data 0 data data.length true)
  | .mark name .forDownload => ({ s with ota := (goliothOtaMarkForDownload name s.ota).2 }, .ok [])
  | .mark name .idle => ({ s with ota := (goliothOtaMarkIdle name s.ota).2 }, .ok [])
  | .mark name .updating => ({ s with ota := (goliothOtaMarkUpdating name s.ota).2 }, .ok [])

end
end Pouch
