import PouchNode.Buf
import PouchNode.Lib.Loop

/-! CBOR decoding with zcbor, and the map decoder of zcbor_utils.c on top of it. zcbor itself
is given: its functions take a state and return another one, or fail and leave it as it was.
What the code looks at without it, through the payload pointer, is kept. -/
namespace Pouch

abbrev Memory := Nat → UInt8

def Memory.bytesAt (mem : Memory) (address len : Nat) : Buf :=
  (List.range len).map fun i => mem (address + i)

structure ZcborString where
  value : Nat
  len : Nat
  deriving DecidableEq, Repr

/- zcbor_state_t. The backups are those of the containers around: their element counts, and
   whether they are of indefinite length. -/
structure ZcborState where
  payload : Nat
  payloadEnd : Nat
  elemCount : Nat
  indefinite : Bool
  backups : List (Nat × Bool)
  numBackups : Nat
  deriving DecidableEq, Repr

def zcborStateD (numBackups : Nat) (payload size : Nat) : ZcborState :=
  ⟨payload, payload + size, 1, false, [], numBackups⟩

structure Zcbor where
  mapStartDecode : ZcborState → Option ZcborState
  listStartDecode : ZcborState → Option ZcborState
  mapEndDecode : ZcborState → Option ZcborState
  listMapEndForceDecode : ZcborState → Option ZcborState
  uint32Decode : ZcborState → Option (UInt32 × ZcborState)
  int32Decode : ZcborState → Option (Int × ZcborState)
  int64Decode : ZcborState → Option (Int × ZcborState)
  tstrDecode : ZcborState → Option (ZcborString × ZcborState)
  floatDecode : ZcborState → Option (UInt64 × ZcborState)
  boolDecode : ZcborState → Option (Bool × ZcborState)
  nilExpect : ZcborState → Option ZcborState
  anySkip : ZcborState → Option ZcborState

inductive ZcborMajorType where
  | pint | nint | bstr | tstr | list | map | tag | simple
  deriving DecidableEq, Repr

def zcborMajorType (headerByte : UInt8) : ZcborMajorType :=
  match headerByte.toNat / 32 with
  | 0 => .pint
  | 1 => .nint
  | 2 => .bstr
  | 3 => .tstr
  | 4 => .list
  | 5 => .map
  | 6 => .tag
  | _ => .simple

inductive DecodeErrno where
  | ebadmsg | enoent | enomem
  | other (code : Nat)
  deriving DecidableEq, Repr

inductive DecodeRet where
  | ok
  | err (e : DecodeErrno)
  deriving DecidableEq, Repr

/- The state of a decoder, the addresses that the code has looked at by itself, and whatever
   the callbacks write to. -/
structure Decoder (ω : Type*) where
  zsd : ZcborState
  looked : List Nat
  world : ω

section
variable {ω : Type*}

def Decoder.look (d : Decoder ω) : Decoder ω := { d with looked := d.looked++[d.zsd.payload] }

def zcborListOrMapEnd (mem : Memory) (d : Decoder ω) : Bool × Decoder ω :=
  if d.zsd.indefinite then (decide (mem d.zsd.payload = 0xFF), d.look)
  else (decide (d.zsd.elemCount = 0), d)

inductive ZcborMapKeyType where
  | u32 | tstr
  deriving DecidableEq, Repr

/- struct zcbor_map_key. The integer shares the low bytes of the pointer. -/
structure ZcborMapKey where
  type : ZcborMapKeyType
  value : Nat
  len : Nat
  deriving DecidableEq, Repr

def ZcborMapKey.u32 (key : ZcborMapKey) : Nat := key.value % 2^32

def ZcborMapKey.setU32 (key : ZcborMapKey) (k : UInt32) : ZcborMapKey :=
  { key with type := .u32, value := key.value / 2^32 * 2^32 + k.toNat }

def ZcborMapKey.setTstr (key : ZcborMapKey) (tstr : ZcborString) : ZcborMapKey :=
  { key with type := .tstr, value := tstr.value, len := tstr.len }

inductive EntryKey where
  | u32 (k : UInt32)
  | tstr (text : Buf)
  deriving DecidableEq, Repr

def EntryKey.type : EntryKey → ZcborMapKeyType
  | .u32 _ => .u32
  | .tstr _ => .tstr

/- A callback may have no answer: it may loop. -/
structure ZcborMapEntry (ω : Type*) where
  key : EntryKey
  decode : Decoder ω → Option (DecodeRet × Decoder ω)

def entryMatches (mem : Memory) (entry : EntryKey) (key : ZcborMapKey) : Bool :=
  match entry with
  | .u32 k => decide (k.toNat = key.u32)
  | .tstr text => decide (key.len = text.length) && decide (text = mem.bytesAt key.value text.length)

def mapEntryGet (mem : Memory) (entries : List (ZcborMapEntry ω)) (key : ZcborMapKey) :
    Option (Fin entries.length) := Fin.find? fun i => entryMatches mem (entries.get i).key key

section
variable (lib : Zcbor) (mem : Memory)

def mapValueDecode {β : Type*} (decode : ZcborState → Option (β × ZcborState))
    (store : β → ω → ω) (d : Decoder ω) : DecodeRet × Decoder ω :=
  match decode d.zsd with
  | none => (.err .ebadmsg, d)
  | some (value, zsd) => (.ok, { d with zsd, world := store value d.world })

def zcborMapInt64Decode (store : Int → ω → ω) : Decoder ω → DecodeRet × Decoder ω :=
  mapValueDecode lib.int64Decode store
def zcborMapInt32Decode (store : Int → ω → ω) : Decoder ω → DecodeRet × Decoder ω :=
  mapValueDecode lib.int32Decode store
def zcborMapTstrDecode (store : ZcborString → ω → ω) : Decoder ω → DecodeRet × Decoder ω :=
  mapValueDecode lib.tstrDecode store

def zcborMapKeyDecode (key : ZcborMapKey) (d : Decoder ω) :
    Except DecodeErrno ZcborMapKey × Decoder ω :=
  match zcborMajorType (mem d.zsd.payload) with
  | .tstr =>
    match lib.tstrDecode d.zsd with
    | none => (.error .ebadmsg, d.look)
    | some (tstr, zsd) => (.ok (key.setTstr tstr), { d.look with zsd })
  | .pint =>
    match lib.uint32Decode d.zsd with
    | none => (.error .ebadmsg, d.look)
    | some (k, zsd) => (.ok (key.setU32 k), { d.look with zsd })
  | _ => (.error .ebadmsg, d.look)

variable (entries : List (ZcborMapEntry ω))

def entryDecode (entry : Option (Fin entries.length)) (d : Decoder ω) :
    Option (DecodeRet × Decoder ω) :=
  match entry with
  | some i => (entries.get i).decode d
  | none =>
    match lib.anySkip d.zsd with
    | none => some (.err .ebadmsg, d)
    | some zsd => some (.ok, { d with zsd })

/- The loop of zcbor_map_decode: the key, and of each pair so far the entry it was for. Their
   number is num_decoded. -/
structure MapLoop (ω : Type*) (n : Nat) where
  decoder : Decoder ω
  key : ZcborMapKey
  pairs : List (Option (Fin n))

def MapLoop.decoded {n : Nat} (s : MapLoop ω n) : List (Fin n) := s.pairs.filterMap id
def MapLoop.numDecoded {n : Nat} (s : MapLoop ω n) : Nat := s.decoded.length

def mapDecodeStep (s : MapLoop ω entries.length) :
    Option (MapLoop ω entries.length ⊕ Option DecodeErrno × MapLoop ω entries.length) :=
  if s.numDecoded < entries.length then
    let (ended, d) := zcborListOrMapEnd mem s.decoder
    if ended then some (.inr (none, { s with decoder := d }))
    else
      match zcborMapKeyDecode lib mem s.key d with
      | (.error e, d) => some (.inr (some e, { s with decoder := d }))
      | (.ok key, d) =>
        let entry := mapEntryGet mem entries key
        match entryDecode lib entries entry d with
        | none => none
        | some (.err e, d) => some (.inr (some e, ⟨d, key, s.pairs⟩))
        | some (.ok, d) => some (.inl ⟨d, key, s.pairs++[entry]⟩)
  else some (.inr (none, s))

def mapEndDecode (ret : DecodeRet) (s : MapLoop ω entries.length) :
    DecodeRet × MapLoop ω entries.length :=
  match lib.listMapEndForceDecode s.decoder.zsd with
  | none => (.err .ebadmsg, s)
  | some zsd => (ret, { s with decoder := { s.decoder with zsd } })

/- The key is not initialised. With the return value comes the loop as it was left. -/
def zcborMapDecode (fuel : Nat) (key : ZcborMapKey) (d : Decoder ω) :
    Option (DecodeRet × MapLoop ω entries.length) :=
  match lib.mapStartDecode d.zsd with
  | none => some (.err .ebadmsg, ⟨d, key, []⟩)
  | some zsd =>
    match Loop.run (mapDecodeStep lib mem entries) fuel ⟨{ d with zsd }, key, []⟩ with
    | none => none
    | some (some e, s) => some (.err e, s)
    | some (none, s) =>
      if s.numDecoded = 0 then some (mapEndDecode lib entries (.err .enoent) s)
      else if s.numDecoded < entries.length then some (.err .ebadmsg, s)
      else some (mapEndDecode lib entries .ok s)

end
end

def ZcborState.readTo (z : ZcborState) (address : Nat) : ZcborState :=
  { z with payload := address, elemCount := z.elemCount - 1 }

structure ZcborState.Reads (z z' : ZcborState) : Prop where
  forward : z.payload < z'.payload
  bounded : z'.payload ≤ z.payloadEnd
  same : z' = z.readTo z'.payload

structure ZcborState.Opens (z z' : ZcborState) : Prop where
  forward : z.payload < z'.payload
  bounded : z'.payload ≤ z.payloadEnd
  payloadEnd : z'.payloadEnd = z.payloadEnd
  backups : z'.backups = (z.elemCount - 1, z.indefinite) :: z.backups
  numBackups : z'.numBackups = z.numBackups

/- What is known of zcbor. Its functions check bounds and types, and count elements. The end
   of a map that is forced brings back the count of the container around it, and leaves the
   payload where it is. -/
structure Zcbor.Lawful (lib : Zcbor) (mem : Memory) : Prop where
  uint32 : ∀ z k z', lib.uint32Decode z = some (k, z') →
    z.Reads z' ∧ zcborMajorType (mem z.payload) = .pint
  int32 : ∀ z k z', lib.int32Decode z = some (k, z') → z.Reads z'
  int64 : ∀ z k z', lib.int64Decode z = some (k, z') → z.Reads z'
  tstr : ∀ z k z', lib.tstrDecode z = some (k, z') → z.Reads z'
  float : ∀ z k z', lib.floatDecode z = some (k, z') → z.Reads z'
  bool : ∀ z k z', lib.boolDecode z = some (k, z') → z.Reads z'
  nil : ∀ z z', lib.nilExpect z = some z' → z.Reads z'
  skip : ∀ z z', lib.anySkip z = some z' → z.Reads z'
  mapStart : ∀ z z', lib.mapStartDecode z = some z' →
    z.Opens z' ∧ zcborMajorType (mem z.payload) = .map
  listStart : ∀ z z', lib.listStartDecode z = some z' → z.Opens z'
  mapEnd : ∀ z z', lib.mapEndDecode z = some z' →
    z.payload ≤ z'.payload ∧ (z.payload ≤ z.payloadEnd → z'.payload ≤ z.payloadEnd) ∧
      z'.payloadEnd = z.payloadEnd
  forceEnd : ∀ z z', lib.listMapEndForceDecode z = some z' → ∃ elemCount indefinite,
    z.backups = (elemCount, indefinite) :: z'.backups ∧
      z' = { z with elemCount, indefinite, backups := z'.backups }
  forceEnds : ∀ z, z.backups ≠ [] → lib.listMapEndForceDecode z ≠ none

def memoryAt (address : Nat) (bytes : Buf) : Memory := fun a =>
  if address ≤ a then bytes.getD (a - address) 0 else 0

section
variable (mem : Memory)

def shortHead (z : ZcborState) : Option (ZcborMajorType × Nat × Nat) :=
  let info := (mem z.payload).toNat % 32
  if ¬ (z.payload < z.payloadEnd ∧ z.elemCount ≠ 0) then none
  else if info < 24 then some (zcborMajorType (mem z.payload), info, z.payload + 1)
  else if info = 24 ∧ z.payload + 1 < z.payloadEnd then
    some (zcborMajorType (mem z.payload), (mem (z.payload + 1)).toNat, z.payload + 2)
  else none

def shortValue {β : Type*} (value : ZcborMajorType → Nat → Option β) (z : ZcborState) :
    Option (β × ZcborState) :=
  match shortHead mem z with
  | none => none
  | some (type, n, address) => (value type n).map fun b => (b, z.readTo address)

def shortStart (type : ZcborMajorType) (perEntry : Nat) (z : ZcborState) : Option ZcborState :=
  if ¬ (z.backups.length < z.numBackups ∧ z.payload < z.payloadEnd ∧ z.elemCount ≠ 0 ∧
      zcborMajorType (mem z.payload) = type) then none
  else
    let backups := (z.elemCount - 1, z.indefinite) :: z.backups
    if (mem z.payload).toNat % 32 = 31 then
      some { z with payload := z.payload + 1, elemCount := 2^32, indefinite := true, backups }
    else
      match shortHead mem z with
      | none => none
      | some (_, n, address) =>
        some { z with payload := address, elemCount := perEntry*n, indefinite := false, backups }

def shortEnd (z : ZcborState) : Option ZcborState :=
  match z.backups with
  | [] => none
  | (elemCount, indefinite) :: backups => some { z with elemCount, indefinite, backups }

def shortInt (type : ZcborMajorType) (n : Nat) : Option Int :=
  match type with
  | .pint => some n
  | .nint => some (-1 - n)
  | _ => none

def shortSkip (z : ZcborState) : Option ZcborState :=
  match shortHead mem z with
  | none => none
  | some (type, n, address) =>
    if type = .pint ∨ type = .nint then some (z.readTo address)
    else if (type = .bstr ∨ type = .tstr) ∧ address + n ≤ z.payloadEnd then
      some (z.readTo (address + n))
    else none

def shortZcbor : Zcbor where
  mapStartDecode := shortStart mem .map 2
  listStartDecode := shortStart mem .list 1
  mapEndDecode z :=
    if z.indefinite then
      if z.payload < z.payloadEnd ∧ mem z.payload = 0xFF then
        shortEnd { z with payload := z.payload + 1 }
      else none
    else if z.elemCount = 0 then shortEnd z
    else none
  listMapEndForceDecode := shortEnd
  uint32Decode := shortValue mem fun type n => if type = .pint then some (UInt32.ofNat n) else none
  int32Decode := shortValue mem shortInt
  int64Decode := shortValue mem shortInt
  tstrDecode z :=
    match shortHead mem z with
    | none => none
    | some (type, n, address) =>
      if type = .tstr ∧ address + n ≤ z.payloadEnd then some (⟨address, n⟩, z.readTo (address + n))
      else none
  floatDecode _ := none
  boolDecode := shortValue mem fun type n =>
    if type = .simple ∧ (n = 20 ∨ n = 21) then some (decide (n = 21)) else none
  nilExpect z := (shortValue mem (fun type n => if type = .simple ∧ n = 22 then some () else none)
    z).map Prod.snd
  anySkip := shortSkip mem

variable {mem} {z : ZcborState}

theorem shortHead_spec {type : ZcborMajorType} {n address : Nat}
    (h : shortHead mem z = some (type, n, address)) :
    type = zcborMajorType (mem z.payload) ∧ z.payload < address ∧ address ≤ z.payloadEnd := by
  simp only [shortHead] at h
  split at h
  · cases h
  · next hbounds =>
    rw [not_not] at hbounds
    split at h
    · cases h
      exact ⟨rfl, by omega, by omega⟩
    · split at h
      · next htwo =>
        cases h
        exact ⟨rfl, by omega, by omega⟩
      · cases h

theorem reads_readTo {address : Nat} (h : z.payload < address) (hle : address ≤ z.payloadEnd) :
    z.Reads (z.readTo address) := ⟨h, hle, rfl⟩

theorem shortValue_spec {β : Type*} {value : ZcborMajorType → Nat → Option β} {b : β}
    {z' : ZcborState} (h : shortValue mem value z = some (b, z')) :
    z.Reads z' ∧ ∃ n, value (zcborMajorType (mem z.payload)) n = some b := by
  simp only [shortValue] at h
  split at h
  · cases h
  · next type n address hhead =>
    obtain ⟨htype, hlt, hle⟩ := shortHead_spec hhead
    obtain ⟨b', hvalue, heq⟩ := Option.map_eq_some_iff.mp h
    cases heq
    exact ⟨reads_readTo hlt hle, n, htype ▸ hvalue⟩

theorem shortStart_spec {type : ZcborMajorType} {perEntry : Nat} {z' : ZcborState}
    (h : shortStart mem type perEntry z = some z') :
    z.Opens z' ∧ zcborMajorType (mem z.payload) = type := by
  simp only [shortStart] at h
  split at h
  · cases h
  · next hopen =>
    rw [not_not] at hopen
    split at h
    · cases h
      exact ⟨⟨by simp, by simp only; omega, rfl, rfl, rfl⟩, hopen.2.2.2⟩
    · split at h
      · cases h
      · next n address hhead =>
        obtain ⟨-, hlt, hle⟩ := shortHead_spec hhead
        cases h
        exact ⟨⟨hlt, hle, rfl, rfl, rfl⟩, hopen.2.2.2⟩

theorem shortEnd_spec {z' : ZcborState} (h : shortEnd z = some z') :
    ∃ elemCount indefinite, z.backups = (elemCount, indefinite) :: z'.backups ∧
      z' = { z with elemCount, indefinite, backups := z'.backups } := by
  simp only [shortEnd] at h
  split at h
  · cases h
  · next elemCount indefinite backups hbackups =>
    cases h
    exact ⟨elemCount, indefinite, hbackups, rfl⟩

theorem shortZcbor_lawful (mem : Memory) : (shortZcbor mem).Lawful mem where
  uint32 z k z' h := by
    obtain ⟨hreads, n, hvalue⟩ := shortValue_spec h
    refine ⟨hreads, ?_⟩
    split at hvalue
    · assumption
    · cases hvalue
  int32 z k z' h := (shortValue_spec h).1
  int64 z k z' h := (shortValue_spec h).1
  tstr z k z' h := by
    simp only [shortZcbor] at h
    split at h
    · cases h
    · next type n address hhead =>
      obtain ⟨-, hlt, -⟩ := shortHead_spec hhead
      split at h
      · next hfits =>
        cases h
        exact reads_readTo (by omega) hfits.2
      · cases h
  float z k z' h := by cases h
  bool z k z' h := (shortValue_spec h).1
  nil z z' h := by
    obtain ⟨⟨u, z''⟩, hvalue, rfl⟩ := Option.map_eq_some_iff.mp h
    exact (shortValue_spec hvalue).1
  skip z z' h := by
    simp only [shortZcbor, shortSkip] at h
    split at h
    · cases h
    · next type n address hhead =>
      obtain ⟨-, hlt, hle⟩ := shortHead_spec hhead
      split at h
      · cases h
        exact reads_readTo hlt hle
      · split at h
        · next hfits =>
          cases h
          exact reads_readTo (by omega) hfits.2
        · cases h
  mapStart z z' h := shortStart_spec h
  listStart z z' h := (shortStart_spec h).1
  mapEnd z z' h := by
    simp only [shortZcbor] at h
    split at h
    · split at h
      · next hbreak =>
        obtain ⟨elemCount, indefinite, -, heq⟩ := shortEnd_spec h
        rw [heq]
        exact ⟨by simp, fun _ => by simp only; omega, rfl⟩
      · cases h
    · split at h
      · obtain ⟨elemCount, indefinite, -, heq⟩ := shortEnd_spec h
        rw [heq]
        exact ⟨le_rfl, fun h => h, rfl⟩
      · cases h
  forceEnd z z' h := shortEnd_spec h
  forceEnds z h := by
    obtain ⟨⟨elemCount, indefinite⟩, backups, hbackups⟩ := List.exists_cons_of_ne_nil h
    simp [shortZcbor, shortEnd, hbackups]

end
end Pouch
