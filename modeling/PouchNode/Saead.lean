import PouchNode.Session

/-! The SAEAD crypto layer (saead/uplink.c, saead/downlink.c, crypto_saead.c): one uplink
and one downlink session, the record of what the server has sent, and the keys they own. -/
namespace Pouch

structure Server where
  seqnum : UInt64
  pouchId : UInt16
  deriving DecidableEq, Repr

structure Saead where
  uplink : Session
  downlink : Session
  server : Server
  psa : Psa
  deriving DecidableEq

def Saead.boot : Saead := ⟨.boot, .boot, ⟨0, 0⟩, ⟨[], 0⟩⟩

section Uplink
variable (cfg : Config)

def saeadUplinkSessionStart (rnd : RandomOutcome) (o : KeyOutcome) (algorithm : PsaAlgorithm)
    (s : Saead) : Ret × Saead :=
  let uplink := { s.uplink with
    flags := .init, id := ⟨s.uplink.id.initiator, .random s.uplink.id.value.bytes⟩ }
  match sessionIdGenerate rnd uplink.id with
  | (.err e, id) => (.err e, { s with uplink := { uplink with id } })
  | (.ok, id) =>
    -- the result of the key derivation is not looked at
    let (key, psa) := sessionKeyGenerate o s.psa
    (.ok, { s with
      psa
      uplink :=
        { uplink with
          id, key, algorithm
          pouch := { uplink.pouch with id := 0 }
          flags := ⟨true, true, false⟩ } })

def saeadUplinkPouchStart (s : Saead) : Ret × Saead :=
  let (ret, uplink) := sessionPouchStart s.uplink (s.uplink.pouch.id + 1)
  (ret, { s with uplink })

def saeadUplinkEncryptBlock (o : BlockOutcome) (s : Saead) (block : Buf) : Option Buf × Saead :=
  if s.uplink.flags.active then
    let (encrypted, uplink) := sessionEncryptBlock cfg o s.psa s.uplink block
    (encrypted, { s with uplink })
  else (none, s)

def saeadUplinkSessionEnd (s : Saead) : Saead :=
  let (uplink, psa) := sessionEnd s.uplink s.psa
  { s with uplink, psa }

def saeadUplinkSessionMatches (s : Saead) (id : SessionId) (maxBlockSizeLog : UInt8)
    (algorithm : PsaAlgorithm) : Bool :=
  s.uplink.flags.valid && sessionIdIsEqual id s.uplink.id &&
    decide (maxBlockSizeLog.toNat = cfg.maxBlockPayloadSizeLog) &&
    decide (s.uplink.algorithm = algorithm)

def saeadUplinkSessionKeyCopy (o : KeyOutcome) (s : Saead) : PsaKeyId × Psa :=
  if !s.uplink.flags.valid then (psaKeyIdNull, s.psa)
  else if o.copyKey && decide (s.uplink.key ∈ s.psa.live) then s.psa.create
  else (psaKeyIdNull, s.psa)

end Uplink

section Downlink
variable (cfg : Config)

def SessionId.serverSeqnum (id : SessionId) : Option UInt64 :=
  match id.initiator, id.value with
  | .server, .sequential _ seqnum => some seqnum
  | _, _ => none

def isValidDownlink (s : Saead) (id : SessionId) (algorithm : PsaAlgorithm) : Bool :=
  if !s.downlink.flags.valid then true
  else if sessionIdIsEqual s.downlink.id id && decide (s.downlink.algorithm ≠ algorithm) then false
  else
    match id.serverSeqnum with
    | some seqnum => !decide (seqnum ≤ s.server.seqnum)
    | none => true

def downlinkSessionKey (o : KeyOutcome) (s : Saead) (id : SessionId) (algorithm : PsaAlgorithm)
    (maxBlockSizeLog : UInt8) : Except Errno (PsaKeyId × Psa) :=
  match id.initiator with
  | .device =>
    if id.type ≠ .sequential then .error .ebadmsg
    else if !saeadUplinkSessionMatches cfg s id maxBlockSizeLog algorithm then .error .ebadmsg
    else .ok (saeadUplinkSessionKeyCopy o s)
  | .server => .ok (sessionKeyGenerate o s.psa)

def saeadDownlinkSessionStart (o : KeyOutcome) (s : Saead) (id : SessionId)
    (algorithm : PsaAlgorithm) (maxBlockSizeLog : UInt8) : Ret × Saead :=
  if !isValidDownlink s id algorithm then (.err .ebadmsg, s)
  else
    match downlinkSessionKey cfg o s id algorithm maxBlockSizeLog with
    | .error e => (.err e, s)
    | .ok (key, psa) =>
      if key = psaKeyIdNull then (.err .eio, { s with psa })
      else
        (.ok, { s with
          psa
          downlink :=
            { s.downlink with
              flags := ⟨false, true, false⟩
              pouch := { s.downlink.pouch with id := 0 }
              algorithm, key, id } })

def saeadDownlinkSessionEnd (s : Saead) : Saead :=
  let (downlink, psa) := sessionEnd s.downlink s.psa
  { s with downlink, psa }

def saeadDownlinkPouchStart (s : Saead) (id : UInt16) : Ret × Saead :=
  if s.downlink.flags.hasPouch && decide (id ≤ s.server.pouchId) then (.err .ebadmsg, s)
  else
    let (ret, downlink) := sessionPouchStart s.downlink id
    (ret, { s with downlink })

def saeadDownlinkBlockDecrypt (o : BlockOutcome) (s : Saead) (block : Buf) : Option Buf × Saead :=
  match sessionDecryptBlock cfg o s.psa s.downlink block with
  | (none, downlink) => (none, { s with downlink })
  | (some decrypted, downlink) =>
    (some decrypted, { s with
      downlink := { downlink with flags := { downlink.flags with valid := true, hasPouch := true } }
      server := ⟨downlink.id.serverSeqnum.getD s.server.seqnum, downlink.pouch.id⟩ })

end Downlink

inductive SessionInfoId where
  | random (value : Buf)
  | sequential (tag : Buf) (seq : UInt64)
  deriving DecidableEq

structure SessionInfo where
  id : SessionInfoId
  initiator : PouchRole
  aesGcm : Bool
  maxBlockSizeLog : UInt8
  deriving DecidableEq

inductive EncryptionInfo where
  | plaintext (id : Buf)
  | saead (session : SessionInfo) (pouchId : UInt16)
  deriving DecidableEq

def fixedLen (n : Nat) (b : Buf) : Option (Vector UInt8 n) :=
  if h : b.length = n then some ⟨b.toArray, by simpa using h⟩ else none

def SessionInfo.sessionId (info : SessionInfo) : Option SessionId :=
  match info.id with
  | .random value => (fixedLen 16 value).map fun v => ⟨info.initiator, .random v⟩
  | .sequential tag seq => (fixedLen 8 tag).map fun t => ⟨info.initiator, .sequential t seq⟩

def SessionInfo.algorithm (info : SessionInfo) : PsaAlgorithm :=
  if info.aesGcm then .gcm else .chacha20Poly1305

section Crypto
variable (cfg : Config)

def cryptoDownlinkStart (o : KeyOutcome) (s : Saead) : EncryptionInfo → Ret × Saead
  | .plaintext _ => (.err .enotsup, s)
  | .saead session pouchId =>
    match session.sessionId with
    | none => (.err .einval, s)
    | some id =>
      match saeadDownlinkSessionStart cfg o s id session.algorithm session.maxBlockSizeLog with
      | (.err e, s) => (.err e, s)
      | (.ok, s) => saeadDownlinkPouchStart s pouchId

def cryptoSessionEnd (s : Saead) : Saead := saeadDownlinkSessionEnd (saeadUplinkSessionEnd s)

end Crypto
end Pouch
