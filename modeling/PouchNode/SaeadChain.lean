import PouchNode.Lib.Aead
import PouchNode.Replay

/-! The chain of blocks of a pouch. Each block is sealed under the number of blocks before
it and the tag of the last one, and both ends keep these for themselves. -/
namespace Pouch
open Octets Machine

section
variable (sender : PouchRole) (cfg : Config) (o : BlockOutcome) (psa : Psa)

/- session_encrypt_block and session_decrypt_block with the sender as a parameter; the code
   seals as the device and expects the server. -/
def sessionEncryptBlockAs (session : Session) (block : Buf) : Option Buf × Session :=
  if !o.alloc then (none, session)
  else
    let nonce := nonceGenerate session sender
    let (plaintextLen, plaintext) := pouchBufviewReadBe16 (pouchBufviewInit block)
    if plaintextLen ≠ pouchBufviewAvailable cfg plaintext then (none, session)
    else
      let encryptedLen := plaintextLen + authTagLen
      match psaAead o psa session nonce (plaintext.rest.take plaintextLen) with
      | none => (none, session)
      | some ciphertext =>
        if ciphertext.length ≠ encryptedLen then (none, session)
        else
          (some (putBe16 encryptedLen++ciphertext),
            { session with pouch :=
              { session.pouch with
                ad := (ciphertext.drop plaintextLen).take authTagLen
                blockIndex := session.pouch.blockIndex + 1 } })

def sessionDecryptBlockAs (session : Session) (block : Buf) : Option Buf × Session :=
  if !o.alloc then (none, session)
  else
    let nonce := nonceGenerate session sender
    let (ciphertextLen, ciphertext) := pouchBufviewReadBe16 (pouchBufviewInit block)
    if ciphertextLen ≤ authTagLen ∨ ciphertextLen ≠ pouchBufviewAvailable cfg ciphertext then
      (none, session)
    else
      let payloadLen := ciphertextLen - authTagLen
      match psaAead o psa session nonce (ciphertext.rest.take ciphertextLen) with
      | none => (none, session)
      | some plaintext =>
        if plaintext.length ≠ payloadLen then (none, session)
        else
          (some (putBe16 payloadLen++plaintext),
            { session with
              flags := { session.flags with valid := true }
              pouch :=
                { session.pouch with
                  ad := (ciphertext.rest.drop payloadLen).take authTagLen
                  blockIndex := session.pouch.blockIndex + 1 } })

theorem sessionEncryptBlockAs_device :
    sessionEncryptBlockAs .device cfg o psa = sessionEncryptBlock cfg o psa := rfl
theorem sessionDecryptBlockAs_server :
    sessionDecryptBlockAs .server cfg o psa = sessionDecryptBlock cfg o psa := rfl

def encryptChainStep (session : Session) (block : Buf) : Session × Option Buf × Session :=
  let (encrypted, after) := sessionEncryptBlockAs sender cfg o psa session block
  (after, encrypted, after)

def decryptChainStep (session : Session) (block : Buf) : Session × Option Buf × Session :=
  let (decrypted, after) := sessionDecryptBlockAs sender cfg o psa session block
  (after, decrypted, after)

end

def Session.nextAd (session : Session) : Buf :=
  if 0 < session.pouch.blockIndex then session.pouch.ad else []

def Session.chained (session : Session) (tag : Buf) : Session :=
  { session with pouch :=
    { session.pouch with ad := tag, blockIndex := session.pouch.blockIndex + 1 } }

def sizedBlock (payload : Buf) : Buf := putBe16 payload.length++payload

section
variable {cfg : Config} {sender : PouchRole} {o : BlockOutcome} {psa : Psa} {session : Session}

theorem sizedBlock_read {payload : Buf} (h : payload.length < 65536) :
    pouchBufviewReadBe16 (pouchBufviewInit (sizedBlock payload)) =
      (payload.length, ⟨some (sizedBlock payload), 2⟩) := by
  simp [pouchBufviewReadBe16, pouchBufviewInit, Bufview.rest, sizedBlock, Nat.mod_eq_of_lt h]

theorem sizedBlock_rest (payload : Buf) : Bufview.rest ⟨some (sizedBlock payload), 2⟩ = payload := rfl

theorem sizedBlock_available {payload : Buf} (h : payload.length < 65536) :
    pouchBufviewAvailable cfg ⟨some (sizedBlock payload), 2⟩ = payload.length := by
  have hs := cfg.two_pow_le_sizeBits
  rw [available_some cfg (by simp [sizedBlock]) (by simp [sizedBlock]; omega)]
  simp [sizedBlock]

theorem sizedBlock_of_field {b : Buf} (h : getBe16 b + 2 = b.length) : b = sizedBlock (b.drop 2) := by
  match b with
  | [] | [_] => simp at h
  | b1 :: b0 :: payload =>
    have hlen : payload.length = getBe16 (b1 :: b0 :: payload) := by simpa using h.symm
    simp only [sizedBlock, List.drop_succ_cons, List.drop_zero]
    rw [hlen, putBe16_getBe16]
    rfl

theorem psaAead_eq (hkey : session.key ∈ psa.live) (nonce input : Buf) :
    psaAead o psa session nonce input =
      o.aead session.key session.algorithm nonce session.nextAd input := by
  rw [psaAead, if_pos hkey]
  rfl

theorem tag_eq_take {cipher : Buf} {n : Nat} (hlen : cipher.length = n + authTagLen) :
    (cipher.drop n).take authTagLen = Aead.tag authTagLen cipher := by
  rw [Aead.tag, hlen, Nat.add_sub_cancel, List.take_of_length_le]
  rw [List.length_drop, hlen]
  omega

theorem sessionEncryptBlockAs_eq (cfg : Config) {payload cipher : Buf} (halloc : o.alloc = true)
    (hkey : session.key ∈ psa.live) (hsmall : payload.length < 65536)
    (hseal : o.aead session.key session.algorithm (nonceGenerate session sender) session.nextAd
      payload = some cipher) (hlen : cipher.length = payload.length + authTagLen) :
    sessionEncryptBlockAs sender cfg o psa session (sizedBlock payload) =
      (some (sizedBlock cipher), session.chained (Aead.tag authTagLen cipher)) := by
  simp only [sessionEncryptBlockAs, halloc, Bool.not_true, Bool.false_eq_true, if_false,
    sizedBlock_read hsmall, sizedBlock_available hsmall, sizedBlock_rest, psaAead_eq hkey,
    List.take_length, hseal, hlen, ne_eq, not_true_eq_false, tag_eq_take hlen]
  rw [sizedBlock, hlen]
  rfl

theorem sessionDecryptBlockAs_eq (cfg : Config) {payload cipher : Buf} (halloc : o.alloc = true)
    (hkey : session.key ∈ psa.live) (hsmall : cipher.length < 65536) (hpos : 0 < payload.length)
    (hopen : o.aead session.key session.algorithm (nonceGenerate session sender) session.nextAd
      cipher = some payload) (hlen : cipher.length = payload.length + authTagLen) :
    sessionDecryptBlockAs sender cfg o psa session (sizedBlock cipher) =
      (some (sizedBlock payload),
        { session.chained (Aead.tag authTagLen cipher) with
          flags := { session.flags with valid := true } }) := by
  have hlong : ¬ cipher.length ≤ authTagLen := by omega
  have hpayload : cipher.length - authTagLen = payload.length := by omega
  simp only [sessionDecryptBlockAs, halloc, Bool.not_true, Bool.false_eq_true, if_false,
    sizedBlock_read hsmall, sizedBlock_available hsmall, sizedBlock_rest, psaAead_eq hkey,
    List.take_length, hopen, hlong, false_or, hpayload, ne_eq, not_true_eq_false, tag_eq_take hlen]
  rfl

end

/- Both ends are at the same place of the same chain, as far as the next block depends on it. -/
structure InStep {K : Type*} (material material' : PsaKeyId → K) (s r : Session) : Prop where
  key : material s.key = material' r.key
  algorithm : s.algorithm = r.algorithm
  pouchId : s.pouch.id = r.pouch.id
  blockIndex : s.pouch.blockIndex = r.pouch.blockIndex
  nextAd : s.nextAd = r.nextAd

section
variable {K : Type*} (scheme : Aead.Scheme (K × PsaAlgorithm) authTagLen)

def seals (material : PsaKeyId → K) : BlockOutcome :=
  ⟨true, fun key algorithm nonce ad input =>
    some (scheme.encrypt (material key, algorithm) nonce ad input)⟩
def unseals (material : PsaKeyId → K) : BlockOutcome :=
  ⟨true, fun key algorithm nonce ad input =>
    scheme.decrypt (material key, algorithm) nonce ad input⟩

structure PlainBlock (cfg : Config) (b : Buf) : Prop where
  field : getBe16 b + 2 = b.length
  least : 3 ≤ b.length
  most : b.length ≤ cfg.maxPlaintextBlockSize

variable {scheme} {cfg : Config} {sender : PouchRole} {psa psa' : Psa}
  {material material' : PsaKeyId → K} {s r : Session}

theorem InStep.nonce (h : InStep material material' s r) (sender : PouchRole) :
    nonceGenerate s sender = nonceGenerate r sender := by
  simp only [nonceGenerate, h.pouchId, h.blockIndex]

theorem InStep.chained (h : InStep material material' s r) (tag : Buf) (flags : SessionFlags) :
    InStep material material' (s.chained tag) { r.chained tag with flags } := by
  refine ⟨h.key, h.algorithm, h.pouchId, ?_, ?_⟩
  · simp [Session.chained, h.blockIndex]
  · change (if 0 < s.pouch.blockIndex + 1 then tag else []) =
      if 0 < r.pouch.blockIndex + 1 then tag else []
    rw [h.blockIndex]

/-- One block goes through, and both ends have moved on together. -/
theorem chain_step (scheme : Aead.Scheme (K × PsaAlgorithm) authTagLen) (sender : PouchRole)
    (hmode : cfg.encryption = .saead) (hmax : cfg.maxBlockPayloadSize ≤ 32768)
    (hkey : s.key ∈ psa.live) (hkey' : r.key ∈ psa'.live) (h : InStep material material' s r)
    {b : Buf} (hb : PlainBlock cfg b) :
    ∃ c s' r', encryptChainStep sender cfg (seals scheme material) psa s b = (s', some c, s') ∧
      decryptChainStep sender cfg (unseals scheme material') psa' r c = (r', some b, r') ∧
      InStep material material' s' r' ∧ s'.key = s.key ∧ r'.key = r.key ∧
      s'.pouch.ad = r'.pouch.ad ∧ c.length ≤ cfg.maxCiphertextBlockSize ∧
      getBe16 c ≤ cfg.maxBlockSizeFieldValue := by
  have hmost := hb.most
  have hleast := hb.least
  simp only [Config.maxPlaintextBlockSize] at hmost
  have hsized := sizedBlock_of_field hb.field
  obtain ⟨payload, hp⟩ : ∃ payload, payload = b.drop 2 := ⟨_, rfl⟩
  rw [← hp] at hsized
  have hplen : payload.length = b.length - 2 := by rw [hp, List.length_drop]
  obtain ⟨cipher, hc⟩ : ∃ cipher, cipher = scheme.encrypt (material s.key, s.algorithm)
    (nonceGenerate s sender) s.nextAd payload := ⟨_, rfl⟩
  have hclen : cipher.length = payload.length + authTagLen := by
    rw [hc]
    exact scheme.length_encrypt ..
  have hseal : (seals scheme material).aead s.key s.algorithm (nonceGenerate s sender) s.nextAd
      payload = some cipher := congrArg some hc.symm
  have hopen : (unseals scheme material').aead r.key r.algorithm (nonceGenerate r sender) r.nextAd
      cipher = some payload := by
    simp only [unseals, ← h.key, ← h.algorithm, ← h.nonce sender, ← h.nextAd, hc]
    exact scheme.decrypt_encrypt ..
  have htag : authTagLen = 16 := rfl
  have henc := sessionEncryptBlockAs_eq cfg rfl hkey (by omega) hseal hclen
  have hdec := sessionDecryptBlockAs_eq cfg rfl hkey' (by omega) (by omega) hopen hclen
  refine ⟨sizedBlock cipher, s.chained (Aead.tag authTagLen cipher),
    { r.chained (Aead.tag authTagLen cipher) with flags := { r.flags with valid := true } },
    ?_, ?_, h.chained _ _, rfl, rfl, rfl, ?_, ?_⟩
  · rw [encryptChainStep, hsized, henc]
  · rw [decryptChainStep, hdec, ← hsized]
  · simp [sizedBlock, Config.maxCiphertextBlockSize, Config.maxPlaintextBlockSize,
      Config.authTagLen, hmode]
    omega
  · simp [sizedBlock, Config.maxBlockSizeFieldValue, Config.maxCiphertextBlockSize,
      Config.maxPlaintextBlockSize, Config.authTagLen, hmode]
    omega

abbrev blocksOut (out : List (Option Buf × Session)) : List (Option Buf) := out.map Prod.fst
def chainOut (out : List (Option Buf × Session)) : List (UInt32 × Buf) :=
  out.map fun p => (p.2.pouch.blockIndex, p.2.pouch.ad)

theorem chain_run (hmode : cfg.encryption = .saead) (hmax : cfg.maxBlockPayloadSize ≤ 32768)
    (hkey : s.key ∈ psa.live) (hkey' : r.key ∈ psa'.live) (h : InStep material material' s r)
    (bs : List Buf) (hbs : ∀ b ∈ bs, PlainBlock cfg b) :
    ∃ cs : List Buf,
      blocksOut (outputs (encryptChainStep sender cfg (seals scheme material) psa) s bs) =
        cs.map some ∧
      blocksOut (outputs (decryptChainStep sender cfg (unseals scheme material') psa') r cs) =
        bs.map some ∧
      chainOut (outputs (encryptChainStep sender cfg (seals scheme material) psa) s bs) =
        chainOut (outputs (decryptChainStep sender cfg (unseals scheme material') psa') r cs) ∧
      ∀ c ∈ cs, c.length ≤ cfg.maxCiphertextBlockSize ∧ getBe16 c ≤ cfg.maxBlockSizeFieldValue := by
  induction bs generalizing s r with
  | nil => exact ⟨[], rfl, rfl, rfl, by simp⟩
  | cons b bs ih =>
    obtain ⟨c, s', r', henc, hdec, hnext, hs, hr, had, hlen, hfield⟩ :=
      chain_step scheme sender hmode hmax hkey hkey' h (hbs b (by simp))
    obtain ⟨cs, hcs, hback, hchain, hbounds⟩ :=
      ih (by rwa [hs]) (by rwa [hr]) hnext fun d hd => hbs d (by simp [hd])
    refine ⟨c :: cs, ?_, ?_, ?_, ?_⟩
    · simp only [outputs_cons, henc, List.map_cons, hcs]
    · simp only [outputs_cons, hdec, List.map_cons, hback]
    · simp only [chainOut] at hchain
      simp only [chainOut, outputs_cons, henc, hdec, List.map_cons, hchain, hnext.blockIndex, had]
    · simpa using ⟨⟨hlen, hfield⟩, hbounds⟩

end

/-- Blocks sealed by one end of a session are opened by the other, in order and byte for
byte, and the two ends stay in step; no ciphertext block is too long. -/
theorem chain_round_trip {K : Type*} (scheme : Aead.Scheme (K × PsaAlgorithm) authTagLen)
    (cfg : Config) (sender : PouchRole) (psa psa' : Psa) (material material' : PsaKeyId → K)
    (s r : Session) (bs : List Buf) (hmode : cfg.encryption = .saead)
    (hmax : cfg.maxBlockPayloadSize ≤ 32768) (hlive : s.key ∈ psa.live) (hlive' : r.key ∈ psa'.live)
    (hkey : material s.key = material' r.key) (halgorithm : s.algorithm = r.algorithm)
    (hpouch : s.pouch.id = r.pouch.id) (hzero : s.pouch.blockIndex = 0)
    (hzero' : r.pouch.blockIndex = 0) (hbs : ∀ b ∈ bs, PlainBlock cfg b) :
    ∃ cs : List Buf,
      blocksOut (outputs (encryptChainStep sender cfg (seals scheme material) psa) s bs) =
        cs.map some ∧
      blocksOut (outputs (decryptChainStep sender cfg (unseals scheme material') psa') r cs) =
        bs.map some ∧
      chainOut (outputs (encryptChainStep sender cfg (seals scheme material) psa) s bs) =
        chainOut (outputs (decryptChainStep sender cfg (unseals scheme material') psa') r cs) ∧
      ∀ c ∈ cs, c.length ≤ cfg.maxCiphertextBlockSize ∧ getBe16 c ≤ cfg.maxBlockSizeFieldValue := by
  have hstart : InStep material material' s r := by
    refine ⟨hkey, halgorithm, hpouch, hzero.trans hzero'.symm, ?_⟩
    simp [Session.nextAd, hzero, hzero']
  exact chain_run hmode hmax hlive hlive' hstart bs hbs

theorem length_tagged (plain : Buf) :
    (plain++List.replicate authTagLen 0).length = plain.length + authTagLen := by simp

theorem untag_tagged (plain : Buf) :
    some ((plain++List.replicate authTagLen 0).take
      ((plain++List.replicate authTagLen 0).length - authTagLen)) = some plain := by simp

def tagging : Aead.Scheme (Unit × PsaAlgorithm) authTagLen where
  encrypt _ _ _ plain := plain++List.replicate authTagLen 0
  decrypt _ _ _ cipher := some (cipher.take (cipher.length - authTagLen))
  length_encrypt _ _ _ := length_tagged
  decrypt_encrypt _ _ _ := untag_tagged

def sendingEnd : Session :=
  { Session.boot with algorithm := .gcm, key := 1, pouch := ⟨3, 0, List.replicate authTagLen 9⟩ }
def receivingEnd : Session := { Session.boot with algorithm := .gcm, key := 4, pouch := ⟨3, 0, []⟩ }

theorem chain_round_trip_two :
    ∃ cs : List Buf,
      blocksOut (outputs (encryptChainStep .server saeadConfig (seals tagging fun _ => ()) ⟨[1], 1⟩)
        sendingEnd [[0, 1, 0xC0], [0, 2, 0xC0, 7]]) = cs.map some ∧
      blocksOut (outputs (decryptChainStep .server saeadConfig (unseals tagging fun _ => ())
        ⟨[4, 2], 4⟩) receivingEnd cs) = [some [0, 1, 0xC0], some [0, 2, 0xC0, 7]] := by
  have hplain : ∀ b ∈ [[0, 1, 0xC0], [0, 2, 0xC0, 7]], PlainBlock saeadConfig b := by
    intro b hb
    simp only [List.mem_cons, List.not_mem_nil, or_false] at hb
    cases hb with
    | inl he =>
      rw [he]
      exact ⟨rfl, by decide, by decide⟩
    | inr he =>
      rw [he]
      exact ⟨rfl, by decide, by decide⟩
  obtain ⟨cs, hcs, hback, -⟩ := chain_round_trip tagging saeadConfig .server ⟨[1], 1⟩ ⟨[4, 2], 4⟩
    (fun _ => ()) (fun _ => ()) sendingEnd receivingEnd [[0, 1, 0xC0], [0, 2, 0xC0, 7]] rfl
    (by decide) (by decide) (by decide) rfl rfl rfl rfl rfl hplain
  exact ⟨cs, hcs, hback⟩

end Pouch
