import PouchNode.Lib.Machine
import PouchNode.Lib.Residue
import PouchNode.Saead

/-! Nonces of an uplink session. The block counter has 32 bits, its field in the nonce 16,
so the nonces of one session key start over after 65536 blocks. -/
namespace Pouch
open Octets

structure EncryptCall where
  block : Buf
  psa : Psa
  alloc : Bool
  answer : Option Buf

def EncryptCall.outcome (c : EncryptCall) : BlockOutcome := ⟨c.alloc, fun _ _ _ _ _ => c.answer⟩

section
variable (cfg : Config)

def encryptStep (session : Session) (c : EncryptCall) : Session × Option Buf :=
  match sessionEncryptBlock cfg c.outcome c.psa session c.block with
  | (none, after) => (after, none)
  | (some _, after) => (after, some (nonceGenerate session .device))

def encryptNonces (session : Session) (calls : List EncryptCall) : List Buf :=
  (Machine.outputs (encryptStep cfg) session calls).filterMap id

def EncryptCall.Seals (key : PsaKeyId) (c : EncryptCall) : Prop :=
  c.alloc = true ∧ key ∈ c.psa.live ∧
  (pouchBufviewReadBe16 (pouchBufviewInit c.block)).1 =
    pouchBufviewAvailable cfg (pouchBufviewReadBe16 (pouchBufviewInit c.block)).2 ∧
  c.answer.map List.length =
    some ((pouchBufviewReadBe16 (pouchBufviewInit c.block)).1 + authTagLen)

instance (key : PsaKeyId) : DecidablePred (EncryptCall.Seals cfg key) :=
  fun _ => inferInstanceAs (Decidable (_ ∧ _))

end

def nonceAt (session : Session) (i : Nat) : Buf :=
  putBe16 session.pouch.id.toNat++putBe16 (session.pouch.blockIndex + UInt32.ofNat i).toNat++
    [PouchRole.device.byte]++List.replicate (nonceLen - 5) 0

section
variable {cfg : Config}

/-- Everything a call can do: it fails and changes nothing, or it counts its block. -/
theorem encryptStep_cases (cfg : Config) (session : Session) (c : EncryptCall) :
    (¬ c.Seals cfg session.key ∧ encryptStep cfg session c = (session, none)) ∨
    (c.Seals cfg session.key ∧ ∃ ad, encryptStep cfg session c =
      ({ session with pouch :=
        { session.pouch with ad, blockIndex := session.pouch.blockIndex + 1 } },
        some (nonceGenerate session .device))) := by
  by_cases ha : c.alloc = true
  · by_cases hs : (pouchBufviewReadBe16 (pouchBufviewInit c.block)).1 =
        pouchBufviewAvailable cfg (pouchBufviewReadBe16 (pouchBufviewInit c.block)).2
    · by_cases hk : session.key ∈ c.psa.live
      · cases hans : c.answer with
        | none =>
          refine Or.inl ⟨by simp [EncryptCall.Seals, hans], ?_⟩
          simp [encryptStep, sessionEncryptBlock, EncryptCall.outcome, ha, hs, psaAead, hk, hans]
        | some ciphertext =>
          by_cases hl : ciphertext.length =
              (pouchBufviewReadBe16 (pouchBufviewInit c.block)).1 + authTagLen
          · refine Or.inr ⟨⟨ha, hk, hs, by simp [hans, hl]⟩, ?_⟩
            rw [hs] at hl
            simp [encryptStep, sessionEncryptBlock, EncryptCall.outcome, ha, hs, psaAead, hk, hans,
              hl]
          · refine Or.inl ⟨by simp [EncryptCall.Seals, hans, hl], ?_⟩
            rw [hs] at hl
            simp [encryptStep, sessionEncryptBlock, EncryptCall.outcome, ha, hs, psaAead, hk, hans,
              hl]
      · refine Or.inl ⟨by simp [EncryptCall.Seals, hk], ?_⟩
        simp [encryptStep, sessionEncryptBlock, EncryptCall.outcome, ha, hs, psaAead, hk]
    · refine Or.inl ⟨by simp [EncryptCall.Seals, hs], ?_⟩
      simp [encryptStep, sessionEncryptBlock, EncryptCall.outcome, ha, hs]
  · refine Or.inl ⟨by simp [EncryptCall.Seals, ha], ?_⟩
    simp [encryptStep, sessionEncryptBlock, EncryptCall.outcome, ha]

theorem nonceAt_zero (session : Session) : nonceAt session 0 = nonceGenerate session .device := by
  simp [nonceAt, nonceGenerate]

theorem nonceAt_succ (session : Session) (ad : Buf) (i : Nat) :
    nonceAt { session with pouch :=
      { session.pouch with ad, blockIndex := session.pouch.blockIndex + 1 } } i =
    nonceAt session (i + 1) := by
  have hi : session.pouch.blockIndex + 1 + UInt32.ofNat i =
      session.pouch.blockIndex + UInt32.ofNat (i + 1) := by
    rw [UInt32.ofNat_add, UInt32.add_assoc, UInt32.add_comm 1]
    rfl
  simp [nonceAt, hi]

/-- The nonces of a run are those of consecutive block numbers, one for every call that
seals its block. -/
theorem encryptNonces_eq (session : Session) (calls : List EncryptCall) :
    encryptNonces cfg session calls =
      (List.range (calls.countP (fun c => decide (c.Seals cfg session.key)))).map
        (nonceAt session) := by
  induction calls generalizing session with
  | nil => rfl
  | cons c calls ih =>
    cases encryptStep_cases cfg session c with
    | inl hr =>
      obtain ⟨hno, he⟩ := hr
      rw [List.countP_cons_of_neg (by simpa using hno), ← ih session]
      simp [encryptNonces, he]
    | inr hr =>
      obtain ⟨hyes, ad, he⟩ := hr
      rw [List.countP_cons_of_pos (by simpa using hyes), List.range_succ_eq_map]
      simp only [encryptNonces, Machine.outputs_cons, he, List.filterMap_cons, id_eq,
        List.map_cons, List.map_map, nonceAt_zero]
      congr 1
      refine (ih _).trans (List.map_congr_left fun i _ => ?_)
      exact nonceAt_succ session ad i

theorem nonceAt_eq_iff {session : Session} (h0 : session.pouch.blockIndex = 0) (i j : Nat) :
    nonceAt session i = nonceAt session j ↔ i % 65536 = j % 65536 := by
  have hfield : ∀ m n : Nat, putBe16 m = putBe16 n ↔ m % 65536 = n % 65536 := by
    intro m n
    simp only [putBe16, List.cons.injEq, and_true, ← UInt8.toNat_inj, UInt8.toNat_ofNat']
    omega
  have hnum : ∀ n, (session.pouch.blockIndex + UInt32.ofNat n).toNat % 65536 = n % 65536 := by
    intro n
    rw [h0, UInt32.zero_add, UInt32.toNat_ofNat']
    omega
  rw [← hnum i, ← hnum j, ← hfield]
  simp [nonceAt]

/-- From a fresh counter on, the nonces are distinct while at most 65536 blocks are sealed. -/
theorem encryptNonces_nodup {session : Session} (h0 : session.pouch.blockIndex = 0)
    (calls : List EncryptCall) :
    (encryptNonces cfg session calls).Nodup ↔
      calls.countP (fun c => decide (c.Seals cfg session.key)) ≤ 65536 := by
  rw [encryptNonces_eq]
  exact Residue.nodup_map_range_iff (by decide) (nonceAt_eq_iff h0) _

end

theorem saeadUplinkPouchStart_blockIndex {s t : Saead} (h : saeadUplinkPouchStart s = (.ok, t)) :
    t.uplink.pouch.blockIndex = 0 := by
  cases ha : s.uplink.flags.active with
  | false => simp [saeadUplinkPouchStart, sessionPouchStart, ha] at h
  | true =>
    simp only [saeadUplinkPouchStart, sessionPouchStart, ha, if_true, Prod.mk.injEq,
      true_and] at h
    rw [← h]

/-- In a session just started, whatever fails on the way, no nonce occurs twice exactly
if at most 65536 calls seal their block. -/
theorem nonces_distinct_iff (cfg : Config) (rnd : RandomOutcome) (o : KeyOutcome)
    (algorithm : PsaAlgorithm) (s started session : Saead) (calls : List EncryptCall)
    (_hs : saeadUplinkSessionStart rnd o algorithm s = (.ok, started))
    (hp : saeadUplinkPouchStart started = (.ok, session)) :
    (encryptNonces cfg session.uplink calls).Nodup ↔
      calls.countP (fun c => decide (c.Seals cfg session.uplink.key)) ≤ 65536 :=
  encryptNonces_nodup (saeadUplinkPouchStart_blockIndex hp) calls

def firstRandom : RandomOutcome := ⟨some (Vector.replicate 16 7), none⟩
def firstKeys : KeyOutcome := ⟨true, true, true, true, true, true⟩
def firstSession : Saead :=
  (saeadUplinkPouchStart
    (saeadUplinkSessionStart firstRandom firstKeys .chacha20Poly1305 .boot).2).2
def sealCall : EncryptCall := ⟨[0, 1, 0xC0], ⟨[1], 1⟩, true, some (List.replicate 17 0)⟩
def sealConfig : Config := .ofLog 9 .saead

theorem nonces_distinct_two :
    (encryptNonces sealConfig firstSession.uplink [sealCall, sealCall]).Nodup :=
  (nonces_distinct_iff sealConfig firstRandom firstKeys .chacha20Poly1305 .boot _ firstSession
    [sealCall, sealCall] rfl rfl).mpr (by decide)

/-- The 65537th block of a session reuses the nonce of the first. -/
theorem nonces_repeat :
    ¬ (encryptNonces sealConfig firstSession.uplink (List.replicate 65537 sealCall)).Nodup := by
  rw [encryptNonces_nodup rfl, List.countP_replicate]
  have hseals : decide (sealCall.Seals sealConfig firstSession.uplink.key) = true := by decide
  simp [hseals]

end Pouch
