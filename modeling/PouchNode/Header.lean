import PouchNode.Entry
import PouchNode.Saead
import PouchNode.Lib.Cbor

/-! The pouch header (header.c, header.cddl) and what the two crypto layers put into it. The
encoder is generated from header.cddl: it is a parameter, of which only the format is known. -/
namespace Pouch

def pouchHeaderVersion : UInt8 := 1
def pouchHeaderOverhead : Nat := 2
def pouchHeaderOverheadEncryptionNone : Nat := 3
def pouchDeviceIdMaxLen : Nat := 32
def sessionIdLen : Nat := 16
def certRefShortLen : Nat := 6

def pouchHeaderMaxLen : Encryption → Nat
  | .none => pouchHeaderOverhead + pouchHeaderOverheadEncryptionNone + pouchDeviceIdMaxLen
  | .saead => 16 + sessionIdLen + certRefShortLen

inductive SentInfo where
  | plaintext (id : Buf)
  | saead (session : SessionInfo) (certRef : Buf) (pouchId : UInt16)

structure PouchHeader where
  version : UInt8
  encryptionInfo : SentInfo

section
open Cbor

def SessionInfoId.cbor : SessionInfoId → Buf
  | .random value => array [bstr value]
  | .sequential tag seq => array [bstr tag, uint seq.toNat]

def PouchRole.cbor : PouchRole → Buf
  | .device => uint 0
  | .server => uint 1

def algorithmCbor (aesGcm : Bool) : Buf := if aesGcm then uint 2 else uint 1

def SentInfo.cbor : SentInfo → Buf
  | .plaintext id => array [uint 0, tstr id]
  | .saead session certRef pouchId =>
    array [uint 1,
      array [session.id.cbor, session.initiator.cbor, algorithmCbor session.aesGcm,
        uint session.maxBlockSizeLog.toNat, bstr certRef],
      uint pouchId.toNat]

def PouchHeader.cbor (header : PouchHeader) : Buf :=
  array [uint header.version.toNat, header.encryptionInfo.cbor]

end

abbrev HeaderEncoder := PouchHeader → Nat → Option Buf

/- It writes the shortest form, and fails exactly if there is no room for that. -/
structure HeaderEncoder.Canonical (encode : HeaderEncoder) : Prop where
  room : ∀ header maxlen, header.cbor.length ≤ maxlen → encode header maxlen = some header.cbor
  noRoom : ∀ header maxlen, maxlen < header.cbor.length → encode header maxlen = none

namespace CryptoNone

def cryptoInit (deviceId stored : Option CString) : Ret × Option CString :=
  match deviceId with
  | none => (.err .einval, stored)
  | some id =>
    if pouchDeviceIdMaxLen < strlen id then (.err .einval, stored) else (.ok, some id)

def cryptoHeaderGet (deviceId : CString) : Except Errno SentInfo := .ok (.plaintext deviceId.chars)

end CryptoNone

def SessionIdValue.info : SessionIdValue → SessionInfoId
  | .sequential tag seqnum => .sequential tag.toList seqnum
  | .random value => .random value.toList

def saeadUplinkHeaderGet (cfg : Config) (certRef : Option (Vector UInt8 6)) (uplink : Session) :
    Except Errno SentInfo :=
  if !uplink.flags.active then .error .enotconn
  else
    let session : SessionInfo :=
      { id := uplink.id.value.info
        initiator := .device
        aesGcm := decide (uplink.algorithm ≠ .chacha20Poly1305)
        maxBlockSizeLog := UInt8.ofNat cfg.maxBlockPayloadSizeLog }
    match certRef with
    | none => .error .ebusy
    | some ref => .ok (.saead session ref.toList uplink.pouch.id)

section
variable (encode : HeaderEncoder) (encryption : Encryption)

def writeHeader (info : Except Errno SentInfo) (buf : Buf) (maxlen : Nat) : Option Buf :=
  match info with
  | .error _ => none
  | .ok encryptionInfo =>
    match encode ⟨pouchHeaderVersion, encryptionInfo⟩ maxlen with
    | none => none
    | some bytes => some (bufWrite buf bytes)

def pouchHeaderCreate (alloc : Bool) (info : Except Errno SentInfo) : Option Buf :=
  if alloc then writeHeader encode info [] (pouchHeaderMaxLen encryption) else none

end

theorem length_plaintext (id : Buf) :
    (PouchHeader.cbor ⟨pouchHeaderVersion, .plaintext id⟩).length =
      4 + Cbor.headLen id.length + id.length := by
  have hversion : Cbor.headLen pouchHeaderVersion.toNat = 1 := rfl
  simp (disch := decide) only [PouchHeader.cbor, SentInfo.cbor, Cbor.length_array,
    Cbor.length_uint, Cbor.length_tstr, List.map_cons, List.map_nil, List.sum_cons, List.sum_nil,
    List.length_cons, List.length_nil, hversion, Cbor.headLen_small]
  omega

example : PouchHeader.cbor ⟨1, .plaintext [0x61]⟩ = [0x82, 0x01, 0x82, 0x00, 0x61, 0x61] := by
  decide

/-- A device id that crypto_init accepts fits, unless it has the full length. -/
theorem plaintext_fits_iff (id : Buf) (hid : id.length ≤ pouchDeviceIdMaxLen) :
    (PouchHeader.cbor ⟨pouchHeaderVersion, .plaintext id⟩).length ≤ pouchHeaderMaxLen .none ↔
      id.length ≤ 31 := by
  rw [length_plaintext]
  simp only [pouchHeaderMaxLen, pouchHeaderOverhead, pouchHeaderOverheadEncryptionNone,
    pouchDeviceIdMaxLen, Cbor.headLen] at hid ⊢
  split_ifs <;> omega

theorem length_sessionId_le (id : SessionIdValue) : id.info.cbor.length ≤ 19 := by
  cases id with
  | sequential tag seqnum =>
    have hseq : Cbor.headLen seqnum.toNat ≤ 9 :=
      Cbor.headLen_mono (n := 2^64) seqnum.toNat_lt.le
    simp (disch := decide) only [SessionIdValue.info, SessionInfoId.cbor, Cbor.length_array,
      Cbor.length_bstr, Cbor.length_uint, Vector.length_toList, List.map_cons, List.map_nil,
      List.sum_cons, List.sum_nil, List.length_cons, List.length_nil, Cbor.headLen_small]
    omega
  | random value =>
    simp [SessionIdValue.info, SessionInfoId.cbor, Cbor.headLen_small]

theorem length_role (role : PouchRole) : role.cbor.length = 1 := by
  cases role <;> rfl

theorem length_algorithm (aesGcm : Bool) : (algorithmCbor aesGcm).length = 1 := by
  cases aesGcm <;> rfl

/-- With SAEAD the longest header, with a sequence number of nine bytes, just fits. -/
theorem saead_fits (id : SessionIdValue) (initiator : PouchRole) (aesGcm : Bool)
    (maxBlockSizeLog : UInt8) (certRef : Vector UInt8 6) (pouchId : UInt16) :
    (PouchHeader.cbor ⟨pouchHeaderVersion, .saead ⟨id.info, initiator, aesGcm, maxBlockSizeLog⟩
      certRef.toList pouchId⟩).length ≤ pouchHeaderMaxLen .saead := by
  have hid := length_sessionId_le id
  have hlog : Cbor.headLen maxBlockSizeLog.toNat ≤ 2 :=
    Cbor.headLen_mono (n := 255) (by have := maxBlockSizeLog.toNat_lt; omega)
  have hpouch : Cbor.headLen pouchId.toNat ≤ 3 :=
    Cbor.headLen_mono (n := 65535) (by have := pouchId.toNat_lt; omega)
  have hversion : Cbor.headLen pouchHeaderVersion.toNat = 1 := rfl
  simp (disch := decide) only [PouchHeader.cbor, SentInfo.cbor, Cbor.length_array,
    Cbor.length_uint, Cbor.length_bstr, List.map_cons, List.map_nil, List.sum_cons, List.sum_nil,
    List.length_cons, List.length_nil, Vector.length_toList, hversion, length_role,
    length_algorithm, Cbor.headLen_small, pouchHeaderMaxLen, sessionIdLen, certRefShortLen]
  omega

section
variable {encode : HeaderEncoder} {encryption : Encryption}

/-- With an encoder for the format, a header is made exactly if there is a buffer, there is
something to put into it, and it fits. -/
theorem pouchHeaderCreate_eq_none_iff (henc : encode.Canonical) (alloc : Bool) (info : SentInfo) :
    pouchHeaderCreate encode encryption alloc (.ok info) = none ↔
      alloc = false ∨
        pouchHeaderMaxLen encryption < (PouchHeader.cbor ⟨pouchHeaderVersion, info⟩).length := by
  cases alloc with
  | false => simp [pouchHeaderCreate]
  | true =>
    by_cases hfits : (PouchHeader.cbor ⟨pouchHeaderVersion, info⟩).length ≤
        pouchHeaderMaxLen encryption
    · simp [pouchHeaderCreate, writeHeader, henc.room _ _ hfits, hfits]
    · simp only [not_le] at hfits
      simp [pouchHeaderCreate, writeHeader, henc.noRoom _ _ hfits, hfits]

structure HeaderAlwaysFits (encode : HeaderEncoder) (encryption : Encryption) (info : SentInfo) :
    Prop where
  length_le : (PouchHeader.cbor ⟨pouchHeaderVersion, info⟩).length ≤ pouchHeaderMaxLen encryption
  created : ∀ alloc, pouchHeaderCreate encode encryption alloc (.ok info) = none → alloc = false

theorem headerAlwaysFits_iff (henc : encode.Canonical) (info : SentInfo) :
    HeaderAlwaysFits encode encryption info ↔
      (PouchHeader.cbor ⟨pouchHeaderVersion, info⟩).length ≤ pouchHeaderMaxLen encryption := by
  constructor
  · exact HeaderAlwaysFits.length_le
  · intro hfits
    refine ⟨hfits, ?_⟩
    intro alloc hnone
    cases (pouchHeaderCreate_eq_none_iff henc alloc info).mp hnone with
    | inl halloc => exact halloc
    | inr hlong => omega

end

/-- Without encryption the header fits exactly if the device id, one that crypto_init accepts,
has at most 31 characters; with SAEAD it always fits, and making it only fails for want of a
buffer, of a session or of the device certificate. -/
theorem header_fits_iff (encode : HeaderEncoder) (henc : encode.Canonical) :
    (∀ (deviceId : CString) (stored : Option CString),
      (CryptoNone.cryptoInit (some deviceId) stored).1 = .ok →
      ((∀ info, CryptoNone.cryptoHeaderGet deviceId = .ok info →
        HeaderAlwaysFits encode .none info) ↔ strlen deviceId ≤ 31)) ∧
    (∀ (id : SessionIdValue) (initiator : PouchRole) (aesGcm : Bool) (maxBlockSizeLog : UInt8)
      (certRef : Vector UInt8 6) (pouchId : UInt16),
      HeaderAlwaysFits encode .saead
        (.saead ⟨id.info, initiator, aesGcm, maxBlockSizeLog⟩ certRef.toList pouchId)) ∧
    ∀ (cfg : Config) (certRef : Option (Vector UInt8 6)) (uplink : Session) (alloc : Bool),
      pouchHeaderCreate encode .saead alloc (saeadUplinkHeaderGet cfg certRef uplink) = none →
        alloc = false ∨ uplink.flags.active = false ∨ certRef = none := by
  refine ⟨?_, ?_, ?_⟩
  · intro deviceId stored hinit
    have hid : deviceId.chars.length ≤ pouchDeviceIdMaxLen := by
      by_contra hlong
      rw [not_le] at hlong
      simp [CryptoNone.cryptoInit, strlen, hlong] at hinit
    simp only [CryptoNone.cryptoHeaderGet, Except.ok.injEq, forall_eq']
    rw [headerAlwaysFits_iff henc, plaintext_fits_iff _ hid]
    rfl
  · intro id initiator aesGcm maxBlockSizeLog certRef pouchId
    rw [headerAlwaysFits_iff henc]
    exact saead_fits id initiator aesGcm maxBlockSizeLog certRef pouchId
  · intro cfg certRef uplink alloc hnone
    cases certRef with
    | none => exact Or.inr (Or.inr rfl)
    | some ref =>
      cases hactive : uplink.flags.active with
      | false => exact Or.inr (Or.inl rfl)
      | true =>
        simp only [saeadUplinkHeaderGet, hactive, Bool.not_true, Bool.false_eq_true, if_false,
          pouchHeaderCreate_eq_none_iff henc] at hnone
        cases hnone with
        | inl halloc => exact Or.inl halloc
        | inr hlong => exact absurd hlong (not_lt.mpr (saead_fits _ _ _ _ _ _))

def shortestEncoder : HeaderEncoder := fun header maxlen =>
  if header.cbor.length ≤ maxlen then some header.cbor else none

theorem shortestEncoder_canonical : shortestEncoder.Canonical where
  room header maxlen h := if_pos h
  noRoom header maxlen h := if_neg (by omega)

theorem header_of_short_id : HeaderAlwaysFits shortestEncoder .none (.plaintext [0x61]) :=
  ((header_fits_iff shortestEncoder shortestEncoder_canonical).1 pathA none (by decide)).mpr
    (by decide) _ rfl

def deviceId32 : CString :=
  ⟨List.replicate 32 0x61, fun h => absurd (List.eq_of_mem_replicate h) (by decide)⟩

/-- With a device id of 32 characters the header takes 38 bytes, and there is room for 37. -/
theorem header_of_longest_id :
    (CryptoNone.cryptoInit (some deviceId32) none).1 = .ok ∧
    (∀ info, CryptoNone.cryptoHeaderGet deviceId32 = .ok info →
      ¬ HeaderAlwaysFits shortestEncoder .none info) ∧
    pouchHeaderCreate shortestEncoder .none true (CryptoNone.cryptoHeaderGet deviceId32) = none := by
  have hlen : deviceId32.chars.length = 32 := List.length_replicate
  refine ⟨by decide, ?_, by decide⟩
  intro info hinfo hfits
  cases hinfo
  have hle := (plaintext_fits_iff deviceId32.chars hlen.le).mp hfits.length_le
  omega

end Pouch
