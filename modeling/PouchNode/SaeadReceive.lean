import PouchNode.SaeadChain

/-! The receiving end against an adversary who chooses every block. If the AEAD opens only
what was sealed, what a pouch yields is the front part of what the server has put into it. -/
namespace Pouch
open Octets Machine

def nonceBytes (pouchId : UInt16) (index : Nat) (sender : PouchRole) : Buf :=
  putBe16 pouchId.toNat++putBe16 index++[sender.byte]++List.replicate (nonceLen - 5) 0

structure SealedBlock where
  plain : Buf
  cipher : Buf

def chainAd (sent : List SealedBlock) : Nat → Buf
  | 0 => []
  | i + 1 => (sent[i]?.map fun b => Aead.tag authTagLen b.cipher).getD []

/- Everything sealed under one key: the pouches of the server, one for each pouch id, and
   whatever the device has sent in its own name. -/
inductive Logged (sent : UInt16 → List SealedBlock) (uplink : UInt16 → Nat → Buf → SealedBlock → Prop) :
    Buf → Buf → Buf → Buf → Prop
  | server (pouchId : UInt16) (i : Nat) (b : SealedBlock) (hb : (sent pouchId)[i]? = some b) :
    Logged sent uplink (nonceBytes pouchId i .server) (chainAd (sent pouchId) i) b.cipher b.plain
  | device (pouchId : UInt16) (i : Nat) (ad : Buf) (b : SealedBlock) (hb : uplink pouchId i ad b) :
    Logged sent uplink (nonceBytes pouchId i .device) ad b.cipher b.plain

structure DecryptCall where
  block : Buf
  psa : Psa
  outcome : BlockOutcome

def DecryptCall.Ideal (sent : UInt16 → List SealedBlock)
    (uplink : UInt16 → Nat → Buf → SealedBlock → Prop) (key : PsaKeyId) (algorithm : PsaAlgorithm)
    (c : DecryptCall) : Prop :=
  ∀ nonce ad cipher plain, c.outcome.aead key algorithm nonce ad cipher = some plain →
    Logged sent uplink nonce ad cipher plain

def decryptStep (cfg : Config) (session : Session) (c : DecryptCall) : Session × Option Buf :=
  let (decrypted, after) := sessionDecryptBlock cfg c.outcome c.psa session c.block
  (after, decrypted)

theorem nonceGenerate_eq (session : Session) (sender : PouchRole) :
    nonceGenerate session sender =
      nonceBytes session.pouch.id session.pouch.blockIndex.toNat sender := rfl

theorem nonceBytes_eq {p q : UInt16} {i j : Nat} {a b : PouchRole}
    (h : nonceBytes p i a = nonceBytes q j b) : p = q ∧ i % 65536 = j % 65536 ∧ a = b := by
  simp only [nonceBytes, List.append_assoc] at h
  obtain ⟨hp, h⟩ := List.append_inj h rfl
  obtain ⟨hi, h⟩ := List.append_inj h rfl
  have hpouch : p.toNat % 65536 = q.toNat % 65536 := by
    rw [← getBe16_putBe16_append p.toNat [], ← getBe16_putBe16_append q.toNat [], hp]
  have hindex : i % 65536 = j % 65536 := by
    rw [← getBe16_putBe16_append i [], ← getBe16_putBe16_append j [], hi]
  rw [Nat.mod_eq_of_lt p.toNat_lt, Nat.mod_eq_of_lt q.toNat_lt, UInt16.toNat_inj] at hpouch
  refine ⟨hpouch, hindex, ?_⟩
  have hrole : a.byte = b.byte := (List.cons.inj h).1
  cases a <;> cases b <;> first | rfl | cases hrole

section
variable {cfg : Config} {o : BlockOutcome} {psa : Psa} {session : Session} {block : Buf}

theorem field_le_length {n : Nat} (hpos : 0 < n) (hfield : n = getBe16 block)
    (havail : n = cfg.sizeSub block.length 2) : n ≤ (block.drop 2).length := by
  match block with
  | [] | [_] => simp [getBe16] at hfield; omega
  | b1 :: b0 :: rest =>
    have hpow := Nat.two_pow_pos cfg.sizeBits
    have hsum : (b1 :: b0 :: rest).length + 2^cfg.sizeBits - 2 = rest.length + 2^cfg.sizeBits := by
      simp only [List.length_cons]
      omega
    rw [Config.sizeSub, hsum, Nat.add_mod_right] at havail
    rw [havail]
    exact Nat.mod_le _ _

/-- What an accepted block was: a ciphertext that the AEAD has opened at this place of the
chain. -/
theorem sessionDecryptBlock_accepts {d : Buf} {after : Session}
    (h : sessionDecryptBlock cfg o psa session block = (some d, after)) :
    ∃ cipher plain, authTagLen ≤ cipher.length ∧ d = sizedBlock plain ∧
      o.aead session.key session.algorithm (nonceGenerate session .server) session.nextAd cipher =
        some plain ∧
      after = { session.chained (Aead.tag authTagLen cipher) with
        flags := { session.flags with valid := true } } := by
  obtain ⟨n, hn⟩ : ∃ n, n = getBe16 block := ⟨_, rfl⟩
  have hread : pouchBufviewReadBe16 (pouchBufviewInit block) = (n, ⟨some block, 2⟩) := by
    rw [hn]
    rfl
  have hrest : Bufview.rest ⟨some block, 2⟩ = block.drop 2 := rfl
  have havail : pouchBufviewAvailable cfg ⟨some block, 2⟩ = cfg.sizeSub block.length 2 := rfl
  simp only [sessionDecryptBlock, hread, hrest, havail] at h
  cases halloc : o.alloc with
  | false => simp [halloc] at h
  | true =>
    by_cases hbad : n ≤ authTagLen ∨ n ≠ cfg.sizeSub block.length 2
    · simp [halloc, hbad] at h
    simp only [halloc, Bool.not_true, Bool.false_eq_true, if_false, if_neg hbad] at h
    rw [not_or, not_le, ne_eq, not_not] at hbad
    have hle := field_le_length (Nat.zero_lt_of_lt hbad.1) hn hbad.2
    have hlen : ((block.drop 2).take n).length = n - authTagLen + authTagLen := by
      rw [List.length_take]
      omega
    have hkey : session.key ∈ psa.live := by
      by_contra hno
      simp [psaAead, hno] at h
    rw [psaAead_eq hkey] at h
    cases hopen : o.aead session.key session.algorithm (nonceGenerate session .server)
        session.nextAd ((block.drop 2).take n) with
    | none => simp [hopen] at h
    | some plain =>
      by_cases hlong : plain.length = n - authTagLen
      · simp only [hopen, hlong, ne_eq, not_true_eq_false, if_false, Prod.mk.injEq,
          Option.some.injEq] at h
        have htag : ((block.drop 2).drop (n - authTagLen)).take authTagLen =
            Aead.tag authTagLen ((block.drop 2).take n) := by
          rw [← tag_eq_take hlen, List.drop_take, List.take_take]
          congr 1
          omega
        refine ⟨(block.drop 2).take n, plain, by omega, ?_, hopen, ?_⟩
        · rw [← h.1, sizedBlock, hlong]
        · rw [← h.2, htag]
          rfl
      · simp [hopen, hlong] at h

end

structure ReceiverAt (key : PsaKeyId) (algorithm : PsaAlgorithm) (p : UInt16)
    (sent : List SealedBlock) (n : Nat) (session : Session) : Prop where
  key_eq : session.key = key
  algorithm_eq : session.algorithm = algorithm
  pouchId : session.pouch.id = p
  blockIndex : session.pouch.blockIndex.toNat = n
  count : n ≤ sent.length
  nextAd : session.nextAd = chainAd sent n
  nonempty : n ≠ 0 → chainAd sent n ≠ []

section
variable {cfg : Config} {sent : UInt16 → List SealedBlock}
  {uplink : UInt16 → Nat → Buf → SealedBlock → Prop} {key : PsaKeyId} {algorithm : PsaAlgorithm}
  {p : UInt16} {n : Nat} {session : Session}

/-- Only the next block of the pouch opens. -/
theorem ReceiverAt.opens (h : ReceiverAt key algorithm p (sent p) n session)
    (hmany : (sent p).length ≤ 65536) {cipher plain : Buf}
    (hlog : Logged sent uplink (nonceGenerate session .server) session.nextAd cipher plain) :
    ∃ b, (sent p)[n]? = some b ∧ b.cipher = cipher ∧ b.plain = plain := by
  have hcount := h.count
  rw [nonceGenerate_eq, h.pouchId, h.blockIndex, h.nextAd] at hlog
  generalize hnonce : nonceBytes p n .server = nonce at hlog
  generalize had : chainAd (sent p) n = ad at hlog
  cases hlog with
  | device q i ad b hb =>
    have hrole := (nonceBytes_eq hnonce).2.2
    cases hrole
  | server q i b hb =>
    obtain ⟨rfl, hmod, -⟩ := nonceBytes_eq hnonce
    have hi := (List.getElem?_eq_some_iff.mp hb).1
    have hsame : i = n := by
      by_contra hne
      -- the index has come round to 0, where there is no tag before the block
      have hzero : i = 0 ∧ n ≠ 0 := by omega
      rw [hzero.1] at had
      exact h.nonempty hzero.2 had
    rw [hsame] at hb
    exact ⟨b, hb, rfl, rfl⟩

/-- A rejected block changes nothing. -/
theorem decryptStep_rejects {c : DecryptCall} (h : (decryptStep cfg session c).2 = none) :
    (decryptStep cfg session c).1 = session := by
  cases sessionDecryptBlock_cases cfg c.outcome c.psa session c.block with
  | inl hr => simp only [decryptStep, hr]
  | inr hr =>
    obtain ⟨-, d, ad, he⟩ := hr
    simp [decryptStep, he] at h

/-- One presented block: nothing happens, or it is the next one. -/
theorem decryptStep_received (h : ReceiverAt key algorithm p (sent p) n session)
    (hmany : (sent p).length ≤ 65536) (c : DecryptCall) (hc : c.Ideal sent uplink key algorithm) :
    ((decryptStep cfg session c).2 = none ∧ (decryptStep cfg session c).1 = session) ∨
    ∃ b, (sent p)[n]? = some b ∧ (decryptStep cfg session c).2 = some (sizedBlock b.plain) ∧
      ReceiverAt key algorithm p (sent p) (n + 1) (decryptStep cfg session c).1 := by
  cases hd : sessionDecryptBlock cfg c.outcome c.psa session c.block with
  | mk decrypted after =>
    cases decrypted with
    | none =>
      have hnone : (decryptStep cfg session c).2 = none := by simp [decryptStep, hd]
      exact Or.inl ⟨hnone, decryptStep_rejects hnone⟩
    | some d =>
      obtain ⟨cipher, plain, htag, hplain, hopen, hafter⟩ := sessionDecryptBlock_accepts hd
      rw [h.key_eq, h.algorithm_eq] at hopen
      obtain ⟨b, hb, hcipher, hbplain⟩ := h.opens hmany (hc _ _ _ _ hopen)
      have hlt := (List.getElem?_eq_some_iff.mp hb).1
      refine Or.inr ⟨b, hb, by simp [decryptStep, hd, hplain, hbplain], ?_⟩
      have hindex := h.blockIndex
      have hnext : (session.pouch.blockIndex + 1).toNat = n + 1 := by
        rw [UInt32.toNat_add, hindex]
        simp
        omega
      have hchain : chainAd (sent p) (n + 1) = Aead.tag authTagLen cipher := by
        simp [chainAd, hb, hcipher]
      simp only [decryptStep, hd, hafter]
      refine ⟨h.key_eq, h.algorithm_eq, h.pouchId, hnext, hlt, ?_, ?_⟩
      · have hpos : 0 < session.pouch.blockIndex + 1 := by
          rw [UInt32.lt_iff_toNat_lt, hnext]
          exact Nat.succ_pos n
        rw [hchain, Session.nextAd]
        exact if_pos hpos
      · intro _
        rw [hchain]
        apply List.ne_nil_of_length_pos
        rw [Aead.length_tag htag]
        decide

end

/-- Whatever is presented to the receiver after session_pouch_start, it returns a front part
of what the server has put into the pouch, and a block that it rejects leaves its place in
the chain as it is. -/
theorem received_front (cfg : Config) (sent : UInt16 → List SealedBlock)
    (uplink : UInt16 → Nat → Buf → SealedBlock → Prop) (p : UInt16) (before session : Session)
    (calls : List DecryptCall) (hmany : (sent p).length ≤ 65536)
    (hstart : sessionPouchStart before p = (.ok, session))
    (hideal : ∀ c ∈ calls, c.Ideal sent uplink session.key session.algorithm) :
    (outputs (decryptStep cfg) session calls).filterMap id <+:
      (sent p).map (fun b => sizedBlock b.plain) ∧
    ∀ u c v, calls = u++c :: v →
      (decryptStep cfg (final (decryptStep cfg) session u) c).2 = none →
      (decryptStep cfg (final (decryptStep cfg) session u) c).1.pouch =
        (final (decryptStep cfg) session u).pouch := by
  constructor
  · have hopened : session.pouch.id = p ∧ session.pouch.blockIndex = 0 := by
      rw [sessionPouchStart] at hstart
      split at hstart
      · cases hstart
        exact ⟨rfl, rfl⟩
      · cases hstart
    have hzero : ReceiverAt session.key session.algorithm p (sent p) 0 session := by
      refine ⟨rfl, rfl, hopened.1, ?_, Nat.zero_le _, ?_, fun hne => absurd rfl hne⟩
      · rw [hopened.2]
        rfl
      · rw [Session.nextAd, hopened.2]
        rfl
    refine outputs_front (decryptStep cfg) _ ?_ 0 session hzero calls hideal
    intro n s c hc h
    cases decryptStep_received h hmany c hc with
    | inl hkept =>
      rw [hkept.2]
      exact Or.inl ⟨hkept.1, h⟩
    | inr hnext =>
      obtain ⟨b, hb, hout, hrec⟩ := hnext
      refine Or.inr ⟨by simp [hout, hb], ?_, hrec⟩
      rw [List.length_map]
      exact (List.getElem?_eq_some_iff.mp hb).1
  · intro u c v _ hnone
    rw [decryptStep_rejects hnone]

def firstSealed : SealedBlock := ⟨[0xC0], 0xC0 :: List.replicate authTagLen 1⟩
def secondSealed : SealedBlock := ⟨[0xC0, 7], 0xC0 :: 7 :: List.replicate authTagLen 2⟩
def pouchThree (p : UInt16) : List SealedBlock := if p = 3 then [firstSealed, secondSealed] else []
def opensThree : BlockOutcome :=
  ⟨true, fun _ _ nonce ad cipher =>
    if nonce = nonceBytes 3 0 .server ∧ ad = [] ∧ cipher = firstSealed.cipher then
      some firstSealed.plain
    else if nonce = nonceBytes 3 1 .server ∧ ad = List.replicate authTagLen 1 ∧
        cipher = secondSealed.cipher then some secondSealed.plain
    else none⟩
def presented (b : SealedBlock) : DecryptCall := ⟨sizedBlock b.cipher, ⟨[1], 1⟩, opensThree⟩
def waitingSession : Session :=
  { Session.boot with algorithm := .gcm, key := 1, flags := ⟨false, true, false⟩ }

/-- The second block too early, the first one twice, then the second again. -/
theorem received_front_three :
    (outputs (decryptStep saeadConfig) (sessionPouchStart waitingSession 3).2
      [presented secondSealed, presented firstSealed, presented firstSealed,
        presented secondSealed]).filterMap id = [[0, 1, 0xC0], [0, 2, 0xC0, 7]] ∧
    (outputs (decryptStep saeadConfig) (sessionPouchStart waitingSession 3).2
      [presented secondSealed, presented firstSealed, presented firstSealed,
        presented secondSealed]).filterMap id <+:
      (pouchThree 3).map (fun b => sizedBlock b.plain) := by
  refine ⟨by decide, ?_⟩
  refine (received_front saeadConfig pouchThree (fun _ _ _ _ => False) 3 waitingSession _ _
    (by decide) rfl ?_).1
  have hideal : ∀ b, (presented b).Ideal pouchThree (fun _ _ _ _ => False) 1 .gcm := by
    intro b nonce ad cipher plain hopen
    simp only [presented, opensThree] at hopen
    split_ifs at hopen with h0 h1
    · obtain ⟨rfl, rfl, rfl⟩ := h0
      cases hopen
      exact .server 3 0 firstSealed rfl
    · obtain ⟨rfl, rfl, rfl⟩ := h1
      cases hopen
      exact .server 3 1 secondSealed rfl
  intro c hc
  simp only [List.mem_cons, List.not_mem_nil, or_false] at hc
  rcases hc with rfl | rfl | rfl | rfl
  · exact hideal secondSealed
  · exact hideal firstSealed
  · exact hideal firstSealed
  · exact hideal secondSealed

end Pouch
