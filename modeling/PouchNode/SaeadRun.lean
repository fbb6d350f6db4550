import PouchNode.Lib.Machine
import PouchNode.Saead

/-! Runs of the crypto layer. For each operation one lemma says everything it can do to
the state; the invariants of reachable states follow from these. -/
namespace Pouch

inductive SaeadOp where
  | header (info : EncryptionInfo) (o : KeyOutcome)
  | decrypt (block : Buf) (o : BlockOutcome)
  | sessionEnd
  /- crypto_session_start and crypto_pouch_start, as pouch_uplink_start calls them. -/
  | uplinkStart (rnd : RandomOutcome) (o : KeyOutcome) (algorithm : PsaAlgorithm)

inductive SaeadOut where
  | header (ret : Ret)
  | decrypted (block : Option Buf)
  | done
  deriving DecidableEq

def uplinkStart (rnd : RandomOutcome) (o : KeyOutcome) (algorithm : PsaAlgorithm) (s : Saead) :
    Saead :=
  match saeadUplinkSessionStart rnd o algorithm s with
  | (.err _, s) => s
  | (.ok, s) => (saeadUplinkPouchStart s).2

def saeadStep (cfg : Config) (s : Saead) : SaeadOp → Saead × SaeadOut
  | .header info o =>
    let (ret, s) := cryptoDownlinkStart cfg o s info
    (s, .header ret)
  | .decrypt block o =>
    let (decrypted, s) := saeadDownlinkBlockDecrypt cfg o s block
    (s, .decrypted decrypted)
  | .sessionEnd => (cryptoSessionEnd s, .done)
  | .uplinkStart rnd o algorithm => (uplinkStart rnd o algorithm s, .done)

abbrev saeadFinal (cfg : Config) : Saead → List SaeadOp → Saead := Machine.final (saeadStep cfg)

def KeyOutcome.derives (o : KeyOutcome) : Bool :=
  o.serverKey && o.setup && o.keyAgreement && o.inputBytes && o.outputKey

theorem sessionKeyGenerate_eq (o : KeyOutcome) (psa : Psa) :
    sessionKeyGenerate o psa = if o.derives then psa.create else (psaKeyIdNull, psa) := by
  obtain ⟨k, a, b, c, d, e⟩ := o
  cases k <;> cases a <;> cases b <;> cases c <;> cases d <;> rfl

theorem isValidDownlink_eq (s : Saead) (id : SessionId) (algorithm : PsaAlgorithm) :
    isValidDownlink s id algorithm = true ↔ s.downlink.flags.valid = false ∨
      ¬ (s.downlink.id = id ∧ s.downlink.algorithm ≠ algorithm) ∧
      ∀ n, id.serverSeqnum = some n → s.server.seqnum < n := by
  cases hv : s.downlink.flags.valid with
  | false => simp [isValidDownlink, hv]
  | true =>
    cases hn : id.serverSeqnum with
    | none => simp [isValidDownlink, hv, hn, sessionIdIsEqual, imp_iff_not_or]
    | some n =>
      by_cases hid : s.downlink.id = id ∧ s.downlink.algorithm ≠ algorithm
      · simp [isValidDownlink, hv, sessionIdIsEqual, hid]
      · have hsame : (sessionIdIsEqual s.downlink.id id &&
            decide (s.downlink.algorithm ≠ algorithm)) = false := by
          rw [sessionIdIsEqual, ← Bool.decide_and, decide_eq_false hid]
        have hnew : (∀ m, some n = some m → s.server.seqnum < m) ↔ s.server.seqnum < n := by simp
        simp only [isValidDownlink, hv, hn, hsame, hnew]
        simp [hid]

/- The invariant that keeps the device's own session out of the downlink: uplink session
   ids are always random, and the server may only reuse a sequential one. -/
structure SaeadInv (s : Saead) : Prop where
  uplink_random : s.uplink.flags.valid = true → s.uplink.id.type = .random
  null_not_live : psaKeyIdNull ∉ s.psa.live
  next_bound : s.downlink.key ≤ s.psa.next
  key_server : s.downlink.key ∈ s.psa.live → s.downlink.id.initiator = .server

def acceptedSession (old : Session) (id : SessionId) (algorithm : PsaAlgorithm) (key : PsaKeyId)
    (pouchId : UInt16) : Session :=
  ⟨id, ⟨false, true, false⟩, algorithm, key, { old.pouch with id := pouchId, blockIndex := 0 }⟩

section
variable (cfg : Config) {s : Saead}

/-- A device-initiated header never matches: the uplink's ids are random. -/
theorem downlinkSessionKey_device (h : SaeadInv s) (o : KeyOutcome) {id : SessionId}
    (hi : id.initiator = .device) (algorithm : PsaAlgorithm) (log : UInt8) :
    downlinkSessionKey cfg o s id algorithm log = .error .ebadmsg := by
  simp only [downlinkSessionKey, hi]
  by_cases ht : id.type = .sequential
  · have hno : saeadUplinkSessionMatches cfg s id log algorithm = false := by
      by_contra hm
      simp only [saeadUplinkSessionMatches, sessionIdIsEqual, Bool.not_eq_false,
        Bool.and_eq_true, decide_eq_true_eq] at hm
      have hr := h.uplink_random hm.1.1.1
      rw [← hm.1.1.2, ht] at hr
      cases hr
    simp [ht, hno]
  · simp [ht]

/-- A header is accepted exactly if it passes the replay check, the server initiated its
session, and the key derivation succeeds. -/
theorem sessionStart_cases (h : SaeadInv s) (o : KeyOutcome) (id : SessionId)
    (algorithm : PsaAlgorithm) (log : UInt8) :
    ((∃ e, saeadDownlinkSessionStart cfg o s id algorithm log = (.err e, s)) ∧
      ¬ (isValidDownlink s id algorithm = true ∧ id.initiator = .server ∧ o.derives = true)) ∨
    ((isValidDownlink s id algorithm = true ∧ id.initiator = .server ∧ o.derives = true) ∧
      saeadDownlinkSessionStart cfg o s id algorithm log = (.ok, { s with
        psa := s.psa.create.2
        downlink := { s.downlink with
          flags := ⟨false, true, false⟩
          pouch := { s.downlink.pouch with id := 0 }
          algorithm, key := s.psa.create.1, id } })) := by
  cases hv : isValidDownlink s id algorithm with
  | false => exact Or.inl ⟨⟨.ebadmsg, by simp [saeadDownlinkSessionStart, hv]⟩, by simp⟩
  | true =>
    cases hi : id.initiator with
    | device =>
      refine Or.inl ⟨⟨.ebadmsg, ?_⟩, by simp⟩
      simp [saeadDownlinkSessionStart, hv, downlinkSessionKey_device cfg h o hi]
    | server =>
      cases ho : o.derives with
      | false =>
        refine Or.inl ⟨⟨.eio, ?_⟩, by simp⟩
        simp [saeadDownlinkSessionStart, hv, downlinkSessionKey, hi, sessionKeyGenerate_eq, ho]
      | true =>
        refine Or.inr ⟨by simp, ?_⟩
        simp [saeadDownlinkSessionStart, hv, downlinkSessionKey, hi, sessionKeyGenerate_eq, ho,
          Psa.create, psaKeyIdNull]

/-- Everything a header can do. The replay check on pouch ids never fires: accepting the
session has just cleared SESSION_HAS_POUCH. -/
theorem cryptoDownlinkStart_cases (h : SaeadInv s) (o : KeyOutcome) (info : EncryptionInfo) :
    (∃ e, cryptoDownlinkStart cfg o s info = (.err e, s)) ∨
    ∃ session pouchId id, info = .saead session pouchId ∧ session.sessionId = some id ∧
      isValidDownlink s id session.algorithm = true ∧ id.initiator = .server ∧
      o.derives = true ∧
      cryptoDownlinkStart cfg o s info = (.ok, { s with
        psa := s.psa.create.2
        downlink := acceptedSession s.downlink id session.algorithm s.psa.create.1 pouchId }) := by
  cases info with
  | plaintext id => exact Or.inl ⟨.enotsup, rfl⟩
  | saead session pouchId =>
    cases hid : session.sessionId with
    | none => exact Or.inl ⟨.einval, by simp [cryptoDownlinkStart, hid]⟩
    | some id =>
      have hstart := sessionStart_cases cfg h o id session.algorithm session.maxBlockSizeLog
      cases hstart with
      | inl hr =>
        obtain ⟨⟨e, he⟩, -⟩ := hr
        exact Or.inl ⟨e, by simp [cryptoDownlinkStart, hid, he]⟩
      | inr hr =>
        obtain ⟨⟨hv, hi, ho⟩, he⟩ := hr
        refine Or.inr ⟨session, pouchId, id, rfl, hid, hv, hi, ho, ?_⟩
        simp [cryptoDownlinkStart, hid, he, saeadDownlinkPouchStart, sessionPouchStart,
          acceptedSession]

/-- A header is accepted exactly if its session id is well formed and new, the server has
initiated the session, and a key can be derived. -/
theorem cryptoDownlinkStart_ok_iff (h : SaeadInv s) (o : KeyOutcome) (session : SessionInfo)
    (pouchId : UInt16) :
    (cryptoDownlinkStart cfg o s (.saead session pouchId)).1 = .ok ↔
      ∃ id, session.sessionId = some id ∧ isValidDownlink s id session.algorithm = true ∧
        id.initiator = .server ∧ o.derives = true := by
  constructor
  · intro hok
    cases cryptoDownlinkStart_cases cfg h o (.saead session pouchId) with
    | inl hr =>
      obtain ⟨e, he⟩ := hr
      rw [he] at hok
      cases hok
    | inr hr =>
      obtain ⟨session', pouchId', id, hinfo, hid, hv, hi, ho, -⟩ := hr
      cases hinfo
      exact ⟨id, hid, hv, hi, ho⟩
  · rintro ⟨id, hid, hv, hi, ho⟩
    cases sessionStart_cases cfg h o id session.algorithm session.maxBlockSizeLog with
    | inl hr => exact absurd ⟨hv, hi, ho⟩ hr.2
    | inr hr =>
      simp [cryptoDownlinkStart, hid, hr.2, saeadDownlinkPouchStart, sessionPouchStart]

theorem sessionDecryptBlock_cases (o : BlockOutcome) (psa : Psa) (session : Session) (block : Buf) :
    sessionDecryptBlock cfg o psa session block = (none, session) ∨
    session.key ∈ psa.live ∧ ∃ d ad, sessionDecryptBlock cfg o psa session block =
      (some d, { session with
        flags := { session.flags with valid := true }
        pouch := { session.pouch with ad, blockIndex := session.pouch.blockIndex + 1 } }) := by
  unfold sessionDecryptBlock
  dsimp only
  split_ifs with h1 h2
  · exact Or.inl rfl
  · exact Or.inl rfl
  · split
    · exact Or.inl rfl
    · rename_i heq
      split_ifs with h3
      · exact Or.inl rfl
      · refine Or.inr ⟨?_, _, _, rfl⟩
        by_contra hk
        simp [psaAead, hk] at heq

/-- Everything a block can do: nothing, or mark its session valid and record its pouch. -/
theorem saeadDownlinkBlockDecrypt_cases (s : Saead) (o : BlockOutcome) (block : Buf) :
    saeadDownlinkBlockDecrypt cfg o s block = (none, s) ∨
    s.downlink.key ∈ s.psa.live ∧ ∃ d pouch, pouch.id = s.downlink.pouch.id ∧
      saeadDownlinkBlockDecrypt cfg o s block = (some d, { s with
        downlink := { s.downlink with
          flags := { s.downlink.flags with valid := true, hasPouch := true }, pouch }
        server := ⟨(s.downlink.id.serverSeqnum).getD s.server.seqnum, s.downlink.pouch.id⟩ }) := by
  cases sessionDecryptBlock_cases cfg o s.psa s.downlink block with
  | inl h => exact Or.inl (by simp [saeadDownlinkBlockDecrypt, h])
  | inr h =>
    obtain ⟨hk, d, ad, he⟩ := h
    refine Or.inr ⟨hk, d,
      { s.downlink.pouch with ad, blockIndex := s.downlink.pouch.blockIndex + 1 }, rfl, ?_⟩
    simp only [saeadDownlinkBlockDecrypt, he]

theorem uplinkStart_downlink (rnd : RandomOutcome) (o : KeyOutcome) (algorithm : PsaAlgorithm) :
    (uplinkStart rnd o algorithm s).downlink = s.downlink ∧
    (uplinkStart rnd o algorithm s).server = s.server ∧
    ((uplinkStart rnd o algorithm s).psa = s.psa ∨
      (uplinkStart rnd o algorithm s).psa = s.psa.create.2) ∧
    ((uplinkStart rnd o algorithm s).uplink.flags.valid = true →
      (uplinkStart rnd o algorithm s).uplink.id.type = .random) := by
  cases hr : rnd.value with
  | none =>
    simp [uplinkStart, saeadUplinkSessionStart, sessionIdGenerate, hr, SessionFlags.init]
  | some value =>
    cases ho : o.derives <;>
      simp [uplinkStart, saeadUplinkSessionStart, sessionIdGenerate, hr, saeadUplinkPouchStart,
        sessionPouchStart, sessionKeyGenerate_eq, ho, SessionId.type]

theorem cryptoSessionEnd_downlink (s : Saead) :
    (cryptoSessionEnd s).server = s.server ∧
    (cryptoSessionEnd s).downlink.id = s.downlink.id ∧
    (cryptoSessionEnd s).downlink.algorithm = s.downlink.algorithm ∧
    (cryptoSessionEnd s).downlink.flags.valid = s.downlink.flags.valid ∧
    (cryptoSessionEnd s).uplink.id = s.uplink.id ∧
    (cryptoSessionEnd s).uplink.flags.valid = s.uplink.flags.valid ∧
    (cryptoSessionEnd s).psa.next = s.psa.next ∧
    ((cryptoSessionEnd s).downlink.key = s.downlink.key ∨
      (cryptoSessionEnd s).downlink.key = psaKeyIdNull) ∧
    (cryptoSessionEnd s).psa.live ⊆ s.psa.live := by
  cases hu : s.uplink.flags.active <;> cases hd : s.downlink.flags.active <;>
    simp [cryptoSessionEnd, saeadUplinkSessionEnd, saeadDownlinkSessionEnd, sessionEnd, hu, hd,
      psaDestroyKey]
  · exact List.erase_subset
  · exact List.erase_subset
  · exact List.Subset.trans List.erase_subset List.erase_subset

theorem saeadInv_boot : SaeadInv .boot := by
  refine ⟨?_, ?_, ?_, ?_⟩ <;> simp [Saead.boot, Session.boot, SessionFlags.init, psaKeyIdNull]

theorem saeadStep_inv (op : SaeadOp) (h : SaeadInv s) : SaeadInv (saeadStep cfg s op).1 := by
  cases op with
  | header info o =>
    cases cryptoDownlinkStart_cases cfg h o info with
    | inl hr =>
      obtain ⟨e, he⟩ := hr
      simpa [saeadStep, he] using h
    | inr hr =>
      obtain ⟨session, pouchId, id, -, -, -, hi, -, he⟩ := hr
      simp only [saeadStep, he]
      refine ⟨h.uplink_random, ?_, ?_, fun _ => hi⟩
      · have hn := h.null_not_live
        simpa [Psa.create, psaKeyIdNull] using hn
      · simp [acceptedSession, Psa.create]
  | decrypt block o =>
    cases saeadDownlinkBlockDecrypt_cases cfg s o block with
    | inl hr => simpa [saeadStep, hr] using h
    | inr hr =>
      obtain ⟨-, d, pouch, -, he⟩ := hr
      simp only [saeadStep, he]
      exact ⟨h.uplink_random, h.null_not_live, h.next_bound, h.key_server⟩
  | sessionEnd =>
    obtain ⟨-, hid, -, -, hui, huv, hnext, hkey, hlive⟩ := cryptoSessionEnd_downlink s
    refine ⟨?_, fun hm => h.null_not_live (hlive hm), ?_, ?_⟩
    · simpa [saeadStep, hui, huv] using h.uplink_random
    · have hb := h.next_bound
      cases hkey with
      | inl hk => simpa [saeadStep, hk, hnext] using hb
      | inr hk => simp [saeadStep, hk, psaKeyIdNull]
    · intro hm
      cases hkey with
      | inl hk =>
        rw [saeadStep, hid]
        exact h.key_server (hlive (hk ▸ hm))
      | inr hk => exact absurd (hlive (hk ▸ hm)) h.null_not_live
  | uplinkStart rnd o algorithm =>
    obtain ⟨hd, -, hpsa, hv⟩ := uplinkStart_downlink (s := s) rnd o algorithm
    have hn := h.null_not_live
    have hb := h.next_bound
    refine ⟨hv, ?_, ?_, ?_⟩
    · cases hpsa with
      | inl hp => simpa [saeadStep, hp] using hn
      | inr hp => simpa [saeadStep, hp, Psa.create, psaKeyIdNull] using hn
    · cases hpsa with
      | inl hp => simpa [saeadStep, hp, hd] using hb
      | inr hp =>
        simp only [saeadStep, hp, hd, Psa.create]
        exact Nat.le_succ_of_le hb
    · intro hm
      simp only [saeadStep, hd] at hm ⊢
      apply h.key_server
      cases hpsa with
      | inl hp => simpa [hp] using hm
      | inr hp =>
        -- the new uplink key has a fresh handle
        simp only [hp, Psa.create, List.mem_cons] at hm
        cases hm with
        | inl he =>
          rw [he] at hb
          exact absurd hb (Nat.not_succ_le_self _)
        | inr hl => exact hl

theorem saeadFinal_inv (ops : List SaeadOp) : SaeadInv (saeadFinal cfg .boot ops) :=
  Machine.final_invariant (saeadStep cfg) (fun _ op h => saeadStep_inv cfg op h) _ ops saeadInv_boot

end
end Pouch
