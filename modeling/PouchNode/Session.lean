import PouchNode.Buf

/-! SAEAD sessions (saead/session.h, saead/session.c): identifiers, keys, the nonce and
the encryption of single blocks. What PSA answers is given with each call, so that any
of its operations may fail at any point; a key handle is all the code sees of a key. -/
namespace Pouch
open Octets

def authTagLen : Nat := 16
def nonceLen : Nat := 12

inductive PouchRole where
  | device | server
  deriving DecidableEq, Repr

inductive SessionIdType where
  | sequential | random
  deriving DecidableEq, Repr

/- The union of struct session_id together with the type that selects its member. -/
inductive SessionIdValue where
  | sequential (tag : Vector UInt8 8) (seqnum : UInt64)
  | random (value : Vector UInt8 16)
  deriving DecidableEq

structure SessionId where
  initiator : PouchRole
  value : SessionIdValue
  deriving DecidableEq

def SessionId.type (id : SessionId) : SessionIdType :=
  match id.value with
  | .sequential _ _ => .sequential
  | .random _ => .random

def SessionIdValue.bytes : SessionIdValue → Vector UInt8 16
  | .sequential tag seqnum => tag++Vector.ofFn (n := 8) fun i =>
      UInt8.ofNat (seqnum.toNat / 256^i.val)
  | .random value => value

def sessionIdIsEqual (a b : SessionId) : Bool := decide (a = b)

inductive PsaAlgorithm where
  | none | chacha20Poly1305 | gcm
  deriving DecidableEq, Repr

abbrev PsaKeyId := Nat
def psaKeyIdNull : PsaKeyId := 0

structure Psa where
  live : List PsaKeyId
  next : PsaKeyId
  deriving DecidableEq, Repr

def Psa.create (psa : Psa) : PsaKeyId × Psa :=
  (psa.next + 1, ⟨(psa.next + 1) :: psa.live, psa.next + 1⟩)

def psaDestroyKey (psa : Psa) (key : PsaKeyId) : Psa := { psa with live := psa.live.erase key }

structure SessionFlags where
  valid : Bool
  active : Bool
  hasPouch : Bool
  deriving DecidableEq, Repr

structure SessionPouch where
  id : UInt16
  blockIndex : UInt32
  ad : Buf
  deriving DecidableEq, Repr

structure Session where
  id : SessionId
  flags : SessionFlags
  algorithm : PsaAlgorithm
  key : PsaKeyId
  pouch : SessionPouch
  deriving DecidableEq

def SessionFlags.init : SessionFlags := ⟨false, false, false⟩
def Session.boot : Session :=
  ⟨⟨.device, .sequential (Vector.replicate 8 0) 0⟩, .init, .none, psaKeyIdNull,
    ⟨0, 0, List.replicate authTagLen 0⟩⟩

def sessionEnd (session : Session) (psa : Psa) : Session × Psa :=
  if session.flags.active then
    ({ session with flags := { session.flags with active := false }, key := psaKeyIdNull },
      psaDestroyKey psa session.key)
  else (session, psa)

structure RandomOutcome where
  value : Option (Vector UInt8 16)
  tag : Option (Vector UInt8 8)

def sessionIdGenerate (rnd : RandomOutcome) (id : SessionId) : Ret × SessionId :=
  match id.value with
  | .random old =>
    match rnd.value with
    | none => (.err .eio, ⟨.device, .random old⟩)
    | some value => (.ok, ⟨.device, .random value⟩)
  | .sequential tag seqnum =>
    match rnd.tag with
    | none => (.err .eio, ⟨.device, .sequential tag seqnum⟩)
    | some tag => (.ok, ⟨.device, .sequential tag (seqnum + 1)⟩)

structure KeyOutcome where
  serverKey : Bool
  setup : Bool
  keyAgreement : Bool
  inputBytes : Bool
  outputKey : Bool
  copyKey : Bool
  deriving DecidableEq, Repr

def sessionKeyGenerate (o : KeyOutcome) (psa : Psa) : PsaKeyId × Psa :=
  if !o.serverKey then (psaKeyIdNull, psa)
  else if !o.setup then (psaKeyIdNull, psa)
  else if !o.keyAgreement then (psaKeyIdNull, psa)
  else if !o.inputBytes then (psaKeyIdNull, psa)
  else if !o.outputKey then (psaKeyIdNull, psa)
  else psa.create

def sessionPouchStart (session : Session) (pouchId : UInt16) : Ret × Session :=
  if session.flags.active then
    (.ok, { session with pouch := { session.pouch with id := pouchId, blockIndex := 0 } })
  else (.err .ebusy, session)

def PouchRole.byte : PouchRole → UInt8
  | .device => 0
  | .server => 1

def nonceGenerate (session : Session) (sender : PouchRole) : Buf :=
  putBe16 session.pouch.id.toNat++putBe16 session.pouch.blockIndex.toNat++
    [sender.byte]++List.replicate (nonceLen - 5) 0

/- One call's environment: whether buf_alloc succeeds, and the AEAD operation of PSA as a
   function of key, algorithm, nonce, associated data and input. -/
structure BlockOutcome where
  alloc : Bool
  aead : PsaKeyId → PsaAlgorithm → Buf → Buf → Buf → Option Buf

def psaAead (o : BlockOutcome) (psa : Psa) (session : Session) (nonce input : Buf) : Option Buf :=
  if session.key ∈ psa.live then
    o.aead session.key session.algorithm nonce
      (if 0 < session.pouch.blockIndex then session.pouch.ad else []) input
  else none

def sessionEncryptBlock (cfg : Config) (o : BlockOutcome) (psa : Psa) (session : Session)
    (block : Buf) : Option Buf × Session :=
  if !o.alloc then (none, session)
  else
    let nonce := nonceGenerate session .device
    let (plaintextLen, plaintext) := pouchBufviewReadBe16 (pouchBufviewInit block)
    if plaintextLen ≠ pouchBufviewAvailable cfg plaintext then (none, session)
    else
      let encryptedLen := plaintextLen + authTagLen
      match psaAead o psa session nonce (plaintext.rest.take plaintextLen) with
      | none => (none, session)
      | some ciphertext =>
        if ciphertext.length ≠ encryptedLen then (none, session)
        else
          (some (putBe16 encryptedLen++ciphertext),
            { session with pouch :=
              { session.pouch with
                ad := (ciphertext.drop plaintextLen).take authTagLen
                blockIndex := session.pouch.blockIndex + 1 } })

def sessionDecryptBlock (cfg : Config) (o : BlockOutcome) (psa : Psa) (session : Session)
    (block : Buf) : Option Buf × Session :=
  if !o.alloc then (none, session)
  else
    let nonce := nonceGenerate session .server
    let (ciphertextLen, ciphertext) := pouchBufviewReadBe16 (pouchBufviewInit block)
    if ciphertextLen ≤ authTagLen ∨ ciphertextLen ≠ pouchBufviewAvailable cfg ciphertext then
      (none, session)
    else
      let payloadLen := ciphertextLen - authTagLen
      match psaAead o psa session nonce (ciphertext.rest.take ciphertextLen) with
      | none => (none, session)
      | some plaintext =>
        if plaintext.length ≠ payloadLen then (none, session)
        else
          (some (putBe16 payloadLen++plaintext),
            { session with
              flags := { session.flags with valid := true }
              pouch :=
                { session.pouch with
                  ad := (ciphertext.rest.drop payloadLen).take authTagLen
                  blockIndex := session.pouch.blockIndex + 1 } })

end Pouch
