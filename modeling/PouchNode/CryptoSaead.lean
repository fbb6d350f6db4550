import PouchNode.DownlinkReassembly
import PouchNode.KeyInfo
import PouchNode.SaeadChain
import PouchNode.UplinkPackets
import PouchNode.UplinkSaead

/-! SAEAD under the uplink (crypto_saead.c), with the keys that PSA derives, and a peer that knows
the secret: of what it is sent the headers tell it all it needs to open the blocks. -/
namespace Pouch
open Machine Octets
variable {K : Type*}

structure SaeadDevice (K : Type*) where
  algorithm : PsaAlgorithm
  selected : algorithm.Aead
  scheme : Aead.Scheme (K × PsaAlgorithm) authTagLen
  derive : Buf → K
  certRef : Option (Vector UInt8 6)
  encode : HeaderEncoder
  canonical : encode.Canonical
  start : Nat → RandomOutcome × KeyOutcome
  headerAlloc : Nat → Bool
  alloc : Nat → Bool

def SaeadDevice.sessionKey (d : SaeadDevice K) (id : SessionId) (algorithm : PsaAlgorithm)
    (maxBlockSizeLog : UInt8) : Option K :=
  (sessionKeyInfoBuild id algorithm maxBlockSizeLog).map d.derive

def SaeadDevice.psa (d : SaeadDevice K) (alloc : Bool) (keys : PsaKeyId → Option K) : BlockOutcome :=
  ⟨alloc, fun key algorithm nonce ad input =>
    (keys key).map fun k => d.scheme.encrypt (k, algorithm) nonce ad input⟩

structure SealingCrypto (K : Type*) where
  saead : Saead
  keys : PsaKeyId → Option K
  starts : Nat
  headers : Nat
  blocks : Nat

def SealingCrypto.boot : SealingCrypto K := ⟨.boot, fun _ => none, 0, 0, 0⟩

section
variable (cfg : Config) (d : SaeadDevice K)

def sealingStart (c : SealingCrypto K) : Ret × SealingCrypto K :=
  let (rnd, o) := d.start c.starts
  match saeadUplinkSessionStart rnd o d.algorithm c.saead with
  | (.err e, saead) => (.err e, { c with saead, starts := c.starts + 1 })
  | (.ok, saead) =>
    let key := d.sessionKey saead.uplink.id d.algorithm (UInt8.ofNat cfg.maxBlockPayloadSizeLog)
    -- the null handle, if no key could be derived, stands for none
    let keys := Function.update c.keys saead.uplink.key (if o.derives then key else none)
    (.ok, { c with saead, keys, starts := c.starts + 1 })

def sealingPouchStart (c : SealingCrypto K) : Ret × SealingCrypto K :=
  let (ret, saead) := saeadUplinkPouchStart c.saead
  (ret, { c with saead })

def sealingHeader (c : SealingCrypto K) : Option Buf × SealingCrypto K :=
  (pouchHeaderCreate d.encode .saead (d.headerAlloc c.headers)
    (saeadUplinkHeaderGet cfg d.certRef c.saead.uplink), { c with headers := c.headers + 1 })

def sealingEncrypt (c : SealingCrypto K) (block : Buf) : Option Buf × SealingCrypto K :=
  let (encrypted, saead) :=
    saeadUplinkEncryptBlock cfg (d.psa (d.alloc c.blocks) c.keys) c.saead block
  (encrypted, { c with saead, blocks := c.blocks + 1 })

def SaeadDevice.sessionInfo (id : SessionId) : SessionInfo :=
  ⟨id.value.info, .device, decide (d.algorithm ≠ .chacha20Poly1305),
    UInt8.ofNat cfg.maxBlockPayloadSizeLog⟩

end

section
variable {cfg : Config} {d : SaeadDevice K}

theorem sealingHeader_made {c : SealingCrypto K} {h : Buf} (hmade : (sealingHeader cfg d c).1 = some h) :
    ∃ info, saeadUplinkHeaderGet cfg d.certRef c.saead.uplink = .ok info ∧
      h = PouchHeader.cbor ⟨pouchHeaderVersion, info⟩ ∧ h.length ≤ pouchHeaderMaxLen .saead := by
  simp only [sealingHeader, pouchHeaderCreate] at hmade
  split at hmade
  · cases hinfo : saeadUplinkHeaderGet cfg d.certRef c.saead.uplink with
    | error e => simp [hinfo, writeHeader] at hmade
    | ok info =>
      by_cases hfits : (PouchHeader.cbor ⟨pouchHeaderVersion, info⟩).length ≤ pouchHeaderMaxLen .saead
      · simp only [hinfo, writeHeader, d.canonical.room _ _ hfits, bufWrite, List.nil_append,
          Option.some.injEq] at hmade
        exact ⟨info, rfl, hmade.symm, hmade ▸ hfits⟩
      · simp [hinfo, writeHeader, d.canonical.noRoom _ _ (Nat.lt_of_not_le hfits)] at hmade
  · cases hmade

theorem sealing_header_lt (cfg : Config) (d : SaeadDevice K) (c : SealingCrypto K) (h : Buf)
    (hmade : (sealingHeader cfg d c).1 = some h) : h.length < 2^cfg.sizeBits := by
  obtain ⟨info, -, -, hlen⟩ := sealingHeader_made hmade
  have hbits := cfg.two_pow_le_sizeBits
  rw [pouchHeaderMaxLen, sessionIdLen, certRefShortLen] at hlen
  omega

theorem sealing_encrypt_lt (cfg : Config) (d : SaeadDevice K) (c : SealingCrypto K) (b e : Buf)
    (h : (sealingEncrypt cfg d c b).1 = some e) : e.length < 2^cfg.sizeBits := by
  have hbits := cfg.two_pow_le_sizeBits
  have hsize := getBe16_lt b
  simp only [sealingEncrypt, saeadUplinkEncryptBlock] at h
  split at h
  · rw [sessionEncryptBlock_length h, authTagLen]
    omega
  · cases h

end

def cryptoSaeadUplink (cfg : Config) (d : SaeadDevice K) : CryptoOps cfg (SealingCrypto K) where
  sessionStart := sealingStart cfg d
  pouchStart := sealingPouchStart
  headerCreate := sealingHeader cfg d
  encryptBlock := sealingEncrypt cfg d
  sessionEnd c := { c with saead := cryptoSessionEnd c.saead }
  header_lt := sealing_header_lt cfg d
  encrypt_lt := sealing_encrypt_lt cfg d

section Opening
variable (cfg : Config) (d : SaeadDevice K)

/- A message for a peer that can derive the keys: nothing, or a header and blocks that open to
   these in the session that the header names. -/
inductive OpensTo : Buf → List Buf → Prop
  | nothing : OpensTo [] []
  | pouch (info : SessionInfo) (certRef : Buf) (pouchId : UInt16) (id : SessionId) (key : K)
      (sealed opened : List Buf) (session : info.sessionId = some id)
      (derived : d.sessionKey id info.algorithm info.maxBlockSizeLog = some key)
      (wellFormed : ∀ c ∈ sealed, WellFormedBlock cfg c)
      (opens : blocksOut (outputs
        (decryptChainStep .device cfg (unseals d.scheme fun _ => key) ⟨[1], 1⟩)
        (acceptedSession .boot id info.algorithm 1 pouchId) sealed) = opened.map some) :
      OpensTo (PouchHeader.cbor ⟨pouchHeaderVersion, .saead info certRef pouchId⟩++sealed.flatten)
        opened

end Opening

section Sealing
variable {cfg : Config} {d : SaeadDevice K}

theorem sessionEncryptBlock_congr (cfg : Config) {o o' : BlockOutcome} {psa : Psa}
    {session : Session} (block : Buf) (halloc : o.alloc = o'.alloc)
    (haead : ∀ nonce ad input, o.aead session.key session.algorithm nonce ad input =
      o'.aead session.key session.algorithm nonce ad input) :
    sessionEncryptBlock cfg o psa session block = sessionEncryptBlock cfg o' psa session block := by
  have hcall (nonce input : Buf) :
      psaAead o psa session nonce input = psaAead o' psa session nonce input := by
    simp only [psaAead, haead]
  simp only [sessionEncryptBlock, halloc, hcall]

theorem sessionEncryptBlock_flags (cfg : Config) (o : BlockOutcome) (psa : Psa) (session : Session)
    (block : Buf) : (sessionEncryptBlock cfg o psa session block).2.flags = session.flags := by
  simp only [sessionEncryptBlock]
  split
  · rfl
  · split
    · rfl
    · split
      · rfl
      · split <;> rfl

theorem sessionEncryptBlock_isBlock {o : BlockOutcome} {psa : Psa} {session : Session}
    {block e : Buf} (hsmall : getBe16 block + authTagLen < 65536)
    (h : (sessionEncryptBlock cfg o psa session block).1 = some e) : IsBlock e := by
  have hlen := sessionEncryptBlock_length h
  simp only [sessionEncryptBlock] at h
  split at h
  · cases h
  split at h
  · cases h
  split at h
  · cases h
  split at h
  · cases h
  next hlength =>
    cases h
    have hread : (pouchBufviewReadBe16 (pouchBufviewInit block)).1 = getBe16 block := rfl
    rw [IsBlock, hlen, hread, getBe16_putBe16_append, Nat.mod_eq_of_lt hsmall]
    omega

theorem sessionEncryptBlock_none (cfg : Config) {o : BlockOutcome} {psa : Psa} {session : Session}
    (h : ∀ nonce input, psaAead o psa session nonce input = none) (block : Buf) :
    sessionEncryptBlock cfg o psa session block = (none, session) := by
  simp only [sessionEncryptBlock, h]
  split
  · rfl
  · split <;> rfl

structure SealsWith (c : SealingCrypto K) (key : K) (r : Session) : Prop where
  active : c.saead.uplink.flags.active = true
  live : c.saead.uplink.key ∈ c.saead.psa.live
  keys : c.keys c.saead.uplink.key = some key
  receiver : r.key = 1
  inStep : InStep (fun _ => key) (fun _ => key) c.saead.uplink r

variable {c : SealingCrypto K} {key : K} {r : Session}

/-- A block is sealed, and opened by the receiver. -/
theorem SealsWith.seal (h : SealsWith c key r) (hmode : cfg.encryption = .saead)
    (hmax : cfg.maxBlockPayloadSize ≤ 32768) (halloc : d.alloc c.blocks = true) {b : Buf}
    (hb : PlainBlock cfg b) :
    ∃ e r', (sealingEncrypt cfg d c b).1 = some e ∧ WellFormedBlock cfg e ∧
      decryptChainStep .device cfg (unseals d.scheme fun _ => key) ⟨[1], 1⟩ r e = (r', some b, r') ∧
      SealsWith (sealingEncrypt cfg d c b).2 key r' := by
  have hreceiver : r.key ∈ Psa.live ⟨[1], 1⟩ := by simp [h.receiver]
  obtain ⟨e, s', r', hsealed, hopened, hnext, hskey, hrkey, -, -, hfield⟩ :=
    chain_step d.scheme .device hmode hmax h.live hreceiver h.inStep hb
  have hsame : sessionEncryptBlock cfg (d.psa (d.alloc c.blocks) c.keys) c.saead.psa c.saead.uplink b =
      (some e, s') := by
    have haead (nonce ad input : Buf) :
        (d.psa (d.alloc c.blocks) c.keys).aead c.saead.uplink.key c.saead.uplink.algorithm nonce ad
          input = (seals d.scheme fun _ => key).aead c.saead.uplink.key c.saead.uplink.algorithm
            nonce ad input := by
      simp [SaeadDevice.psa, seals, h.keys]
    rw [sessionEncryptBlock_congr cfg b halloc haead]
    rw [encryptChainStep, sessionEncryptBlockAs_device] at hsealed
    exact Prod.ext (congrArg (fun p => p.2.1) hsealed) (congrArg Prod.fst hsealed)
  have hflags := sessionEncryptBlock_flags cfg (d.psa (d.alloc c.blocks) c.keys) c.saead.psa
    c.saead.uplink b
  rw [hsame] at hflags
  have hstep : sealingEncrypt cfg d c b =
      (some e, { c with saead := { c.saead with uplink := s' }, blocks := c.blocks + 1 }) := by
    simp [sealingEncrypt, saeadUplinkEncryptBlock, h.active, hsame]
  have hsize := hb.field
  have hmost := hb.most
  rw [Config.maxPlaintextBlockSize] at hmost
  have hblock : IsBlock e :=
    sessionEncryptBlock_isBlock (by rw [authTagLen]; omega) (congrArg Prod.fst hsame)
  have hlen : e.length = getBe16 b + authTagLen + 2 :=
    sessionEncryptBlock_length (congrArg Prod.fst hsame)
  rw [hstep]
  refine ⟨e, r', rfl, ⟨hblock, ?_, hfield⟩, hopened, ?_⟩
  · rw [IsBlock] at hblock
    rw [authTagLen] at hlen
    omega
  · exact ⟨hflags ▸ h.active, hskey ▸ h.live, hskey ▸ h.keys, hrkey.trans h.receiver, hnext⟩

/-- For want of a buffer a block is lost, and nothing else. -/
theorem SealsWith.lost (cfg : Config) (h : SealsWith c key r) (halloc : d.alloc c.blocks = false) (b : Buf) :
    sealingEncrypt cfg d c b = (none, { c with blocks := c.blocks + 1 }) := by
  simp [sealingEncrypt, saeadUplinkEncryptBlock, sessionEncryptBlock, h.active, SaeadDevice.psa,
    halloc]

/-- What a session sends opens to its blocks, less those for which there was no buffer. -/
theorem SealsWith.run (h : SealsWith c key r) (hmode : cfg.encryption = .saead)
    (hmax : cfg.maxBlockPayloadSize ≤ 32768) (bs : List Buf) (hbs : ∀ b ∈ bs, PlainBlock cfg b) :
    ∃ opened : List Buf, opened.Sublist bs ∧ ((∀ n, d.alloc n = true) → opened = bs) ∧
      (∀ e ∈ (encryptBlocks (cryptoSaeadUplink cfg d) c bs).1, WellFormedBlock cfg e) ∧
      blocksOut (outputs (decryptChainStep .device cfg (unseals d.scheme fun _ => key) ⟨[1], 1⟩) r
        (encryptBlocks (cryptoSaeadUplink cfg d) c bs).1) = opened.map some := by
  induction bs generalizing c r with
  | nil => exact ⟨[], List.Sublist.refl _, fun _ => rfl, by simp [encryptBlocks], rfl⟩
  | cons b bs ih =>
    obtain ⟨hb, hrest⟩ := List.forall_mem_cons.mp hbs
    cases halloc : d.alloc c.blocks with
    | true =>
      obtain ⟨e, r', hsealed, hwell, hopened, hnext⟩ := h.seal hmode hmax halloc hb
      obtain ⟨opened, hsub, hall, hmore, houts⟩ := ih hnext hrest
      have hsend : (encryptBlocks (cryptoSaeadUplink cfg d) c (b :: bs)).1 =
          e :: (encryptBlocks (cryptoSaeadUplink cfg d) (sealingEncrypt cfg d c b).2 bs).1 := by
        simp [encryptBlocks, cryptoSaeadUplink, hsealed]
      rw [hsend]
      refine ⟨b :: opened, hsub.cons_cons b, fun hn => by rw [hall hn],
        List.forall_mem_cons.mpr ⟨hwell, hmore⟩, ?_⟩
      rw [outputs_cons, hopened]
      exact congrArg (List.cons (some b)) houts
    | false =>
      have hlost := h.lost cfg halloc b
      have hsame : SealsWith (sealingEncrypt cfg d c b).2 key r := by
        rw [hlost]
        exact ⟨h.active, h.live, h.keys, h.receiver, h.inStep⟩
      obtain ⟨opened, hsub, -, hmore, houts⟩ := ih hsame hrest
      have hsend : (encryptBlocks (cryptoSaeadUplink cfg d) c (b :: bs)).1 =
          (encryptBlocks (cryptoSaeadUplink cfg d) (sealingEncrypt cfg d c b).2 bs).1 := by
        simp [encryptBlocks, cryptoSaeadUplink, hlost]
      rw [hsend]
      refine ⟨opened, hsub.cons b, fun hn => ?_, hmore, houts⟩
      rw [hn] at halloc
      cases halloc

theorem encryptBlocks_keyless {c : SealingCrypto K} (h : c.keys c.saead.uplink.key = none)
    (bs : List Buf) : (encryptBlocks (cryptoSaeadUplink cfg d) c bs).1 = [] := by
  induction bs generalizing c with
  | nil => rfl
  | cons b bs ih =>
    have hcall (nonce input : Buf) : psaAead (d.psa (d.alloc c.blocks) c.keys) c.saead.psa
        c.saead.uplink nonce input = none := by
      simp [psaAead, SaeadDevice.psa, h]
    have hnone : sealingEncrypt cfg d c b = (none, { c with blocks := c.blocks + 1 }) := by
      cases hactive : c.saead.uplink.flags.active with
      | true => simp [sealingEncrypt, saeadUplinkEncryptBlock, hactive,
          sessionEncryptBlock_none cfg hcall]
      | false => simp [sealingEncrypt, saeadUplinkEncryptBlock, hactive]
    have hsend : (encryptBlocks (cryptoSaeadUplink cfg d) c (b :: bs)).1 =
        (encryptBlocks (cryptoSaeadUplink cfg d) { c with blocks := c.blocks + 1 } bs).1 := by
      simp [encryptBlocks, cryptoSaeadUplink, hnone]
    rw [hsend]
    exact ih h

end Sealing

section Pouches
variable {cfg : Config} {d : SaeadDevice K}

theorem fixedLen_toList {n : Nat} (v : Vector UInt8 n) : fixedLen n v.toList = some v := by
  simp [fixedLen, Vector.toList]

theorem sessionInfo_sessionId {id : SessionId} (h : id.initiator = .device) :
    (d.sessionInfo cfg id).sessionId = some id := by
  obtain ⟨initiator, value⟩ := id
  obtain rfl : initiator = .device := h
  cases value with
  | random value => simp [SessionInfo.sessionId, SaeadDevice.sessionInfo, SessionIdValue.info, fixedLen_toList]
  | sequential tag seqnum =>
    simp [SessionInfo.sessionId, SaeadDevice.sessionInfo, SessionIdValue.info, fixedLen_toList]

theorem sessionInfo_algorithm (id : SessionId) :
    (d.sessionInfo cfg id).algorithm = d.algorithm := by
  rcases d.selected with h | h
  · simp [SessionInfo.algorithm, SaeadDevice.sessionInfo, h]
  · simp [SessionInfo.algorithm, SaeadDevice.sessionInfo, h]

theorem saeadUplinkSessionStart_ok {rnd : RandomOutcome} {o : KeyOutcome} {algorithm : PsaAlgorithm}
    {s t : Saead} (h : saeadUplinkSessionStart rnd o algorithm s = (.ok, t)) :
    t.uplink.id.initiator = .device ∧ t.uplink.flags = ⟨true, true, false⟩ ∧
      t.uplink.algorithm = algorithm ∧ t.uplink.pouch.id = 0 ∧
      (t.uplink.key, t.psa) = sessionKeyGenerate o s.psa := by
  simp only [saeadUplinkSessionStart, sessionIdGenerate] at h
  cases hvalue : rnd.value with
  | none => simp [hvalue] at h
  | some value =>
    simp only [hvalue, Prod.mk.injEq, true_and] at h
    subst h
    exact ⟨rfl, rfl, rfl, rfl, rfl⟩

structure MadeFor (pouch : UplinkPouch (cryptoSaeadUplink cfg d)) (id : SessionId)
    (certRef : Vector UInt8 6) (key : Option K) : Prop where
  initiator : id.initiator = .device
  header : pouch.header = PouchHeader.cbor
    ⟨pouchHeaderVersion, .saead (d.sessionInfo cfg id) certRef.toList 1⟩
  active : pouch.state.saead.uplink.flags.active = true
  algorithm : pouch.state.saead.uplink.algorithm = d.algorithm
  pouchId : pouch.state.saead.uplink.pouch.id = 1
  blockIndex : pouch.state.saead.uplink.pouch.blockIndex = 0
  keys : pouch.state.keys pouch.state.saead.uplink.key = key
  live : key.isSome → pouch.state.saead.uplink.key ∈ pouch.state.saead.psa.live
  derived : key.isSome → key = d.sessionKey id d.algorithm (UInt8.ofNat cfg.maxBlockPayloadSizeLog)
  always : (∀ n, (d.start n).2.derives = true) → key.isSome

theorem UplinkPouch.madeFor (pouch : UplinkPouch (cryptoSaeadUplink cfg d)) :
    ∃ id certRef key, MadeFor pouch id certRef key := by
  obtain ⟨k0, k1, k2, hsession, hpouch, hheader⟩ := pouch.made
  change sealingStart cfg d k0 = (.ok, k1) at hsession
  change sealingPouchStart k1 = (.ok, k2) at hpouch
  change sealingHeader cfg d k2 = (some pouch.header, pouch.state) at hheader
  simp only [sealingStart] at hsession
  split at hsession
  · cases hsession
  next t hstarted =>
    simp only [Prod.mk.injEq, true_and] at hsession
    obtain ⟨hinitiator, hflags, halgorithm, hzero, hkey⟩ := saeadUplinkSessionStart_ok hstarted
    rw [sessionKeyGenerate_eq] at hkey
    have hopen : sessionPouchStart t.uplink (t.uplink.pouch.id + 1) =
        (.ok, { t.uplink with pouch := { t.uplink.pouch with id := 1, blockIndex := 0 } }) := by
      simp [sessionPouchStart, hflags, hzero]
    subst hsession
    simp only [sealingPouchStart, saeadUplinkPouchStart, hopen, Prod.mk.injEq, true_and] at hpouch
    subst hpouch
    obtain ⟨info, hinfo, hmade, -⟩ := sealingHeader_made (congrArg Prod.fst hheader)
    have hstate := congrArg Prod.snd hheader
    simp only [sealingHeader] at hstate
    simp only [saeadUplinkHeaderGet, hflags, halgorithm, Bool.not_true, Bool.false_eq_true,
      if_false] at hinfo
    cases href : d.certRef with
    | none => simp [href] at hinfo
    | some certRef =>
      simp only [href, Except.ok.injEq] at hinfo
      refine ⟨t.uplink.id, certRef, if (d.start k0.starts).2.derives then d.sessionKey t.uplink.id
        d.algorithm (UInt8.ofNat cfg.maxBlockPayloadSizeLog) else none, hinitiator, ?_, ?_, ?_, ?_, ?_,
        ?_, ?_, ?_, ?_⟩
      · rw [hmade, ← hinfo]
        rfl
      · rw [← hstate]
        simp [hflags]
      · rw [← hstate]
        exact halgorithm
      · rw [← hstate]
      · rw [← hstate]
      · rw [← hstate]
        simp
      · intro hsome
        rw [← hstate]
        cases hderives : (d.start k0.starts).2.derives with
        | false => simp [hderives] at hsome
        | true =>
          rw [hderives, if_pos rfl, Prod.mk.injEq] at hkey
          simp [hkey.1, hkey.2, Psa.create]
      · intro hsome
        cases hderives : (d.start k0.starts).2.derives with
        | false => simp [hderives] at hsome
        | true => rfl
      · intro hall
        simp [hall k0.starts, SaeadDevice.sessionKey, sessionKeyInfoBuild_eq]

/-- A pouch opens to its blocks, less those for which there was no buffer, or if there is no key
it is nothing. -/
theorem UplinkPouch.saead_opens (hmode : cfg.encryption = .saead)
    (hmax : cfg.maxBlockPayloadSize ≤ 32768) (pouch : UplinkPouch (cryptoSaeadUplink cfg d))
    (hblocks : ∀ b ∈ pouch.blocks, PlainBlock cfg b) :
    ∃ opened : List Buf, OpensTo cfg d pouch.bytes opened ∧ opened.Sublist pouch.blocks ∧
      ((∀ n, (d.start n).2.derives = true) → (∀ n, d.alloc n = true) → opened = pouch.blocks) := by
  obtain ⟨id, certRef, key, hmade⟩ := pouch.madeFor
  cases key with
  | none =>
    have hbytes : pouch.bytes = [] := by
      simp [UplinkPouch.bytes, sessionString, encryptBlocks_keyless hmade.keys, withHeader]
    refine ⟨[], ?_, List.nil_sublist _, fun hall => ?_⟩
    · rw [hbytes]
      exact .nothing
    · cases hmade.always hall
  | some key =>
    have hinStep : InStep (fun _ => key) (fun _ => key) pouch.state.saead.uplink
        (acceptedSession .boot id d.algorithm 1 1) := by
      refine ⟨rfl, hmade.algorithm, hmade.pouchId, hmade.blockIndex, ?_⟩
      simp [Session.nextAd, hmade.blockIndex, acceptedSession]
    have hseals : SealsWith pouch.state key (acceptedSession .boot id d.algorithm 1 1) :=
      ⟨hmade.active, hmade.live rfl, hmade.keys, rfl, hinStep⟩
    obtain ⟨opened, hsub, hall, hwell, houts⟩ := hseals.run hmode hmax pouch.blocks hblocks
    refine ⟨opened, ?_, hsub, fun _ hn => hall hn⟩
    rw [UplinkPouch.bytes, sessionString]
    cases hsealed : (encryptBlocks (cryptoSaeadUplink cfg d) pouch.state pouch.blocks).1 with
    | nil =>
      rw [hsealed] at houts
      obtain rfl : opened = [] := List.map_eq_nil_iff.mp houts.symm
      exact .nothing
    | cons e rest =>
      have hbytes : (withHeader (some pouch.header) (e :: rest)).flatten =
          pouch.header++(e :: rest).flatten := by simp [withHeader]
      rw [hbytes, hmade.header]
      rw [hsealed] at hwell houts
      refine .pouch (d.sessionInfo cfg id) certRef.toList 1 id key (e :: rest) opened
        (sessionInfo_sessionId hmade.initiator) ?_ hwell ?_
      · rw [sessionInfo_algorithm]
        exact (hmade.derived rfl).symm
      · rw [sessionInfo_algorithm]
        exact houts

end Pouches
end Pouch
