import PouchNode.Characteristic
import PouchNode.CertServer
import PouchNode.ServerCert
import PouchNode.Lib.Cbor
import PouchNode.Config

/-! The serial number of the server certificate as the peer reads it: alone
(server_cert_characteristic.c), and in the info record (info_characteristic.c). -/
namespace Pouch

def infoChrcMaxSize : Nat := 64

structure ServerCertChrc (pubkeyLen : Nat) where
  server : ServerCertState pubkeyLen
  cert : ServerCertCtx
  serial : Vector UInt8 certSerialMaxlen
  serialLen : UInt8
  serialOffset : UInt8
  info : Buf

section
variable {pubkeyLen : Nat}

def ServerCertChrc.boot (pubkeyLen : Nat) : ServerCertChrc pubkeyLen where
  server := ⟨⟨Vector.replicate _ 0, 0⟩, ⟨Vector.replicate _ 0, 0⟩, false⟩
  cert := .boot
  serial := Vector.replicate _ 0
  serialLen := 0
  serialOffset := 0
  info := []

def pouchServerCertificateSerialGet (len : Nat) (s : ServerCertState pubkeyLen) : Option Buf :=
  if len < s.serial.len then none else some s.serial.value

def sizeOfInt (cfg : Config) (n : Int) : Nat := (n % 2^cfg.sizeBits).toNat

/- serial_offset and serial_len are uint8_t, their difference is an int, and MIN compares it with
   a size_t. A copy from outside the array is an error. -/
def serverCertSerialFillCb (cfg : Config) : FillCallback Unit (ServerCertChrc pubkeyLen) Unit :=
  fun _ maxlen ctx =>
    let left := sizeOfInt cfg ((ctx.serialLen.toNat : Int) - ctx.serialOffset.toNat)
    let dstLen := if maxlen < left then maxlen else left
    if ctx.serialOffset.toNat + dstLen ≤ certSerialMaxlen then
      let serialOffset := ctx.serialOffset + UInt8.ofNat dstLen
      .ok ((if ctx.serialLen ≤ serialOffset then .noMoreData else .moreData,
        (ctx.serial.toList.drop ctx.serialOffset.toNat).take dstLen), { ctx with serialOffset })
    else .error ()

def serverCertSerialRead (cfg : Config) : ReadHandler Unit (ServerCertChrc pubkeyLen) Unit where
  start malloc ctx :=
    match pouchServerCertificateSerialGet certSerialMaxlen ctx.server with
    | none => (.error .notSupported, ctx)
    | some serial =>
      (.ok (packetizerStartCallback malloc ()),
        { ctx with
          serial := copyTo ctx.serial serial
          serialLen := UInt8.ofNat serial.length
          serialOffset := 0 })
  cb := serverCertSerialFillCb cfg
  failed := .unlikely
  noPacketizer := ()

def ServerCertChrc.current (ctx : ServerCertChrc pubkeyLen) : Option Buf :=
  pouchServerCertificateSerialGet certSerialMaxlen ctx.server

def ServerCertChrc.rest (ctx : ServerCertChrc pubkeyLen) : Buf :=
  (ctx.serial.toList.take ctx.serialLen.toNat).drop ctx.serialOffset.toNat

def ServerCertChrc.Running (ctx : ServerCertChrc pubkeyLen) : Prop :=
  ctx.serialOffset ≤ ctx.serialLen ∧ ctx.serialLen.toNat ≤ certSerialMaxlen

theorem sizeOfInt_sub (cfg : Config) {m n : Nat} (h : n ≤ m) (hm : m < 2^32) :
    sizeOfInt cfg ((m : Int) - n) = m - n := by
  have hsize : (2 : Nat)^32 ≤ 2^cfg.sizeBits := Nat.pow_le_pow_right (by decide) cfg.sizeBits_ge
  have hcast : ((m : Int) - n) % 2^cfg.sizeBits = ((m - n : Nat) : Int) := by
    rw [← Nat.cast_sub h]
    exact_mod_cast Nat.mod_eq_of_lt (by omega : m - n < 2^cfg.sizeBits)
  rw [sizeOfInt, hcast, Int.toNat_natCast]

theorem ServerCertChrc.rest_length {ctx : ServerCertChrc pubkeyLen} (h : ctx.Running) :
    ctx.rest.length = ctx.serialLen.toNat - ctx.serialOffset.toNat := by
  rw [ServerCertChrc.rest, List.length_drop, List.length_take_of_le (by simpa using h.2)]

theorem serverCertSerialFillCb_running (cfg : Config) {ctx : ServerCertChrc pubkeyLen}
    (h : ctx.Running) (n : Nat) :
    ∃ t : ServerCertChrc pubkeyLen, serverCertSerialFillCb cfg () n ctx =
      .ok ((if ctx.rest.length ≤ n then .noMoreData else .moreData, ctx.rest.take n), t) ∧
      t.rest = ctx.rest.drop n ∧ t.Running ∧ t.current = ctx.current := by
  have hoffset : ctx.serialOffset.toNat ≤ ctx.serialLen.toNat := h.1
  have hlen : ctx.serialLen.toNat ≤ 20 := h.2
  have hleft := sizeOfInt_sub cfg hoffset (by omega)
  have hrest := ServerCertChrc.rest_length h
  obtain ⟨k, hk⟩ : ∃ k, k = min n (ctx.serialLen.toNat - ctx.serialOffset.toNat) := ⟨_, rfl⟩
  have hmin : (if n < ctx.serialLen.toNat - ctx.serialOffset.toNat then n
      else ctx.serialLen.toNat - ctx.serialOffset.toNat) = k := by
    split_ifs <;> omega
  have hnext : (ctx.serialOffset + UInt8.ofNat k).toNat = ctx.serialOffset.toNat + k := by
    rw [UInt8.toNat_add, UInt8.toNat_ofNat']
    omega
  have hfits : ctx.serialOffset.toNat + k ≤ certSerialMaxlen := by
    rw [certSerialMaxlen]
    omega
  have hlast : (ctx.serialLen ≤ ctx.serialOffset + UInt8.ofNat k) ↔ ctx.rest.length ≤ n := by
    rw [UInt8.le_iff_toNat_le, hnext, hrest]
    omega
  have hbytes : (ctx.serial.toList.drop ctx.serialOffset.toNat).take k = ctx.rest.take n := by
    rw [ServerCertChrc.rest, List.drop_take, List.take_take, hk]
  refine ⟨{ ctx with serialOffset := ctx.serialOffset + UInt8.ofNat k }, ?_, ?_, ⟨?_, h.2⟩, rfl⟩
  · simp only [serverCertSerialFillCb, hleft, hmin, hfits, if_true, hlast, hbytes]
  · simp only [ServerCertChrc.rest, hnext]
    by_cases hn : n ≤ ctx.serialLen.toNat - ctx.serialOffset.toNat
    · rw [hk, Nat.min_eq_left hn, List.drop_drop]
    · rw [List.drop_eq_nil_of_le, List.drop_eq_nil_of_le]
      · rw [List.length_drop, List.length_take]
        omega
      · rw [List.length_take]
        omega
  · change ctx.serialOffset + UInt8.ofNat k ≤ ctx.serialLen
    rw [UInt8.le_iff_toNat_le, hnext]
    omega

theorem serialGet_length {s : ServerCertState pubkeyLen} {n : Nat} {serial : Buf}
    (h : pouchServerCertificateSerialGet n s = some serial) : serial.length ≤ certSerialMaxlen := by
  rw [pouchServerCertificateSerialGet] at h
  split_ifs at h
  exact Option.some.inj h ▸ s.serial.value_length

def ServerCertChrc.begin (ctx : ServerCertChrc pubkeyLen) (serial : Buf) :
    ServerCertChrc pubkeyLen :=
  { ctx with
    serial := copyTo ctx.serial serial
    serialLen := UInt8.ofNat serial.length
    serialOffset := 0 }

theorem ServerCertChrc.begin_rest (ctx : ServerCertChrc pubkeyLen) {serial : Buf}
    (h : serial.length ≤ certSerialMaxlen) :
    (ctx.begin serial).rest = serial ∧ (ctx.begin serial).Running := by
  have hlen : (UInt8.ofNat serial.length).toNat = serial.length := by
    rw [UInt8.toNat_ofNat']
    rw [certSerialMaxlen] at h
    omega
  have hvalue := LenArray.store_value ⟨ctx.serial, 0⟩ serial h
  refine ⟨?_, UInt8.zero_le, ?_⟩
  · simp only [ServerCertChrc.rest, ServerCertChrc.begin, hlen]
    exact hvalue
  · simp only [ServerCertChrc.begin, hlen]
    exact h

theorem serverCertSerialRead_start (cfg : Config) {ctx : ServerCertChrc pubkeyLen} {serial : Buf}
    (h : ctx.current = some serial) :
    (serverCertSerialRead cfg).start true ctx =
      (.ok (some ⟨.callback (), true, none⟩), ctx.begin serial) := by
  rw [ServerCertChrc.current] at h
  simp only [serverCertSerialRead, h]
  rfl

theorem ServerCertChrc.begin_current (ctx : ServerCertChrc pubkeyLen) (serial : Buf) :
    (ctx.begin serial).current = ctx.current := by
  simp only [ServerCertChrc.current, ServerCertChrc.begin]

theorem serverCertSerialRead_readable (cfg : Config) : Readable (serverCertSerialRead cfg)
    (@ServerCertChrc.current pubkeyLen) ServerCertChrc.rest
    ServerCertChrc.Running where
  refused malloc s h := by
    have hnone := h
    rw [ServerCertChrc.current] at hnone
    exact ⟨.notSupported, s, by simp only [serverCertSerialRead, hnone], rfl, h⟩
  started s data h := by
    obtain ⟨hrest, hrunning⟩ := s.begin_rest (serialGet_length h)
    exact ⟨.callback (), s.begin data, serverCertSerialRead_start cfg h,
      (s.begin_current data).trans h, Or.inr ⟨rfl, hrest, hrunning⟩⟩
  filled n s _ h := serverCertSerialFillCb_running cfg h n
  failed := rfl

structure GattInfo where
  flags : UInt8
  serverCertSnr : Buf

def GattInfo.cbor (info : GattInfo) : Buf :=
  Cbor.map [
    (Cbor.tstr [0x66, 0x6c, 0x61, 0x67, 0x73], Cbor.uint info.flags.toNat),
    (Cbor.tstr [0x73, 0x65, 0x72, 0x76, 0x65, 0x72, 0x5f, 0x63, 0x65, 0x72, 0x74, 0x5f, 0x73, 0x6e,
      0x72], Cbor.bstr info.serverCertSnr)]

abbrev InfoEncoder := GattInfo → Nat → Option Buf

structure InfoEncoder.Canonical (encode : InfoEncoder) : Prop where
  room : ∀ info maxlen, info.cbor.length ≤ maxlen → encode info maxlen = some info.cbor
  noRoom : ∀ info maxlen, maxlen < info.cbor.length → encode info maxlen = none

def buildInfoData (cfg : Config) (encode : InfoEncoder) (s : ServerCertState pubkeyLen) :
    Option Buf :=
  let snr :=
    match cfg.encryption with
    | .saead => pouchServerCertificateSerialGet certSerialMaxlen s
    | .none => some []
  match snr with
  | none => none
  | some snr => encode ⟨0, snr⟩ infoChrcMaxSize

def infoRead (cfg : Config) (encode : InfoEncoder) :
    ReadHandler Unit (ServerCertChrc pubkeyLen) Unit where
  start malloc ctx :=
    match buildInfoData cfg encode ctx.server with
    | none => (.error .buildError, ctx)
    | some info => (.ok (packetizerStartBuffer malloc info), { ctx with info })
  cb _ _ _ := .error ()
  failed := .value []
  noPacketizer := ()

def ServerCertChrc.currentInfo (cfg : Config) (ctx : ServerCertChrc pubkeyLen) : Option Buf :=
  match cfg.encryption with
  | .saead => ctx.current.map fun snr => GattInfo.cbor ⟨0, snr⟩
  | .none => some (GattInfo.cbor ⟨0, []⟩)

theorem length_info_le {snr : Buf} (h : snr.length ≤ certSerialMaxlen) :
    (GattInfo.cbor ⟨0, snr⟩).length ≤ infoChrcMaxSize := by
  have hhead := Cbor.headLen_mono h
  have htwenty : Cbor.headLen certSerialMaxlen = 1 := rfl
  rw [certSerialMaxlen] at h
  simp only [GattInfo.cbor, Cbor.map, List.flatMap_cons, List.flatMap_nil, List.length_append,
    Cbor.length_head, Cbor.length_tstr, Cbor.length_uint, Cbor.length_bstr, List.length_cons,
    List.length_nil, infoChrcMaxSize, Nat.reduceAdd]
  have hsmall : Cbor.headLen 2 = 1 ∧ Cbor.headLen 5 = 1 ∧ Cbor.headLen 15 = 1 ∧
      Cbor.headLen (0 : UInt8).toNat = 1 := ⟨rfl, rfl, rfl, rfl⟩
  omega

theorem buildInfoData_eq (cfg : Config) {encode : InfoEncoder} (hencode : encode.Canonical)
    (ctx : ServerCertChrc pubkeyLen) :
    buildInfoData cfg encode ctx.server = ctx.currentInfo cfg := by
  cases hencryption : cfg.encryption with
  | none =>
    simp only [buildInfoData, ServerCertChrc.currentInfo, hencryption]
    exact hencode.room _ _ (length_info_le (Nat.zero_le _))
  | saead =>
    simp only [buildInfoData, ServerCertChrc.currentInfo, ServerCertChrc.current, hencryption]
    cases hget : pouchServerCertificateSerialGet certSerialMaxlen ctx.server with
    | none => rfl
    | some snr => exact hencode.room _ _ (length_info_le (serialGet_length hget))

theorem infoRead_readable (cfg : Config) {encode : InfoEncoder} (hencode : encode.Canonical) :
    Readable (infoRead cfg encode) (@ServerCertChrc.currentInfo pubkeyLen cfg)
      (fun _ => []) fun _ => False where
  refused malloc s h := by
    refine ⟨.buildError, s, ?_, rfl, h⟩
    simp only [infoRead, buildInfoData_eq cfg hencode, h]
  started s data h := by
    refine ⟨.buffer data, { s with info := data }, ?_, h, Or.inl rfl⟩
    simp only [infoRead, buildInfoData_eq cfg hencode, h]
    rfl
  filled _ _ _ h := absurd h id
  failed := rfl

end
end Pouch
