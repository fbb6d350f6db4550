import PouchNode.SaeadRun

/-! Replay protection of the downlink. Both checks hang on SESSION_VALID, which accepting
a header clears before anything of it is authenticated; the results say exactly which
headers get through. -/
namespace Pouch
open Machine

section
variable (cfg : Config)

def Decrypts (s : Saead) (op : SaeadOp) : Prop :=
  ∃ block, (saeadStep cfg s op).2 = .decrypted (some block)

def OnlySession (id : SessionId) (algorithm : PsaAlgorithm) : Saead → List SaeadOp → Prop
  | _, [] => True
  | s, op :: ops =>
    (Decrypts cfg s op → s.downlink.id = id ∧ s.downlink.algorithm = algorithm) ∧
      OnlySession id algorithm (saeadStep cfg s op).1 ops

end

structure LastSession (id : SessionId) (algorithm : PsaAlgorithm) (s : Saead) : Prop where
  seqnum : ∀ n, id.serverSeqnum = some n → s.server.seqnum = n
  same : s.downlink.flags.valid = true → s.downlink.id = id ∧ s.downlink.algorithm = algorithm

section
variable {cfg : Config} {s : Saead} {id : SessionId} {algorithm : PsaAlgorithm}

/-- A block is decrypted under a live key, and leaves its session valid and its number in
the server context. -/
theorem Decrypts.step {op : SaeadOp} (hd : Decrypts cfg s op) :
    s.downlink.key ∈ s.psa.live ∧ ∃ pouch, (saeadStep cfg s op).1 = { s with
      downlink := { s.downlink with
        flags := { s.downlink.flags with valid := true, hasPouch := true }, pouch }
      server := ⟨(s.downlink.id.serverSeqnum).getD s.server.seqnum, s.downlink.pouch.id⟩ } := by
  obtain ⟨block, hb⟩ := hd
  cases op with
  | decrypt cipher o =>
    cases saeadDownlinkBlockDecrypt_cases cfg s o cipher with
    | inl hr => simp [saeadStep, hr] at hb
    | inr hr =>
      obtain ⟨hk, d, pouch, -, he⟩ := hr
      exact ⟨hk, pouch, by simp only [saeadStep, he]⟩
  | header info o => simp [saeadStep] at hb
  | sessionEnd => simp [saeadStep] at hb
  | uplinkStart rnd o alg => simp [saeadStep] at hb

theorem lastSession_of_decrypt {op : SaeadOp} (hd : Decrypts cfg s op) (hid : s.downlink.id = id)
    (ha : s.downlink.algorithm = algorithm) :
    LastSession id algorithm (saeadStep cfg s op).1 := by
  obtain ⟨-, pouch, he⟩ := hd.step
  rw [he]
  exact ⟨fun n hn => by simp [hid, hn], fun _ => ⟨hid, ha⟩⟩

theorem saeadStep_lastSession (hinv : SaeadInv s) (op : SaeadOp) (h : LastSession id algorithm s)
    (hop : Decrypts cfg s op → s.downlink.id = id ∧ s.downlink.algorithm = algorithm) :
    LastSession id algorithm (saeadStep cfg s op).1 := by
  cases op with
  | header info o =>
    cases cryptoDownlinkStart_cases cfg hinv o info with
    | inl hr =>
      obtain ⟨e, he⟩ := hr
      simpa [saeadStep, he] using h
    | inr hr =>
      obtain ⟨session, pouchId, id', -, -, -, -, -, he⟩ := hr
      simp only [saeadStep, he]
      exact ⟨h.seqnum, fun hv => by simp [acceptedSession] at hv⟩
  | decrypt block o =>
    by_cases hd : Decrypts cfg s (.decrypt block o)
    · exact lastSession_of_decrypt hd (hop hd).1 (hop hd).2
    · cases saeadDownlinkBlockDecrypt_cases cfg s o block with
      | inl hr => simpa [saeadStep, hr] using h
      | inr hr =>
        obtain ⟨-, d, pouch, -, he⟩ := hr
        exact absurd ⟨d, by simp [saeadStep, he]⟩ hd
  | sessionEnd =>
    obtain ⟨hs, hi, ha, hv, -⟩ := cryptoSessionEnd_downlink s
    exact ⟨by simpa [saeadStep, hs] using h.seqnum, by simpa [saeadStep, hi, ha, hv] using h.same⟩
  | uplinkStart rnd o alg =>
    obtain ⟨hd, hs, -⟩ := uplinkStart_downlink (s := s) rnd o alg
    exact ⟨by simpa [saeadStep, hs] using h.seqnum, by simpa [saeadStep, hd] using h.same⟩

theorem saeadFinal_lastSession {ops : List SaeadOp} (hinv : SaeadInv s)
    (h : LastSession id algorithm s) (hops : OnlySession cfg id algorithm s ops) :
    LastSession id algorithm (saeadFinal cfg s ops) := by
  induction ops generalizing s with
  | nil => exact h
  | cons op ops ih =>
    exact ih (saeadStep_inv cfg op hinv) (saeadStep_lastSession hinv op h hops.1) hops.2

/-- Only sessions of the server have a key, so only their blocks are decrypted. -/
theorem server_of_decrypts {op : SaeadOp} (hinv : SaeadInv s) (hd : Decrypts cfg s op) :
    s.downlink.id.initiator = .server :=
  hinv.key_server hd.step.1

end

theorem serverSeqnum_isSome_iff {id : SessionId} (h : id.initiator = .server) :
    id.serverSeqnum.isSome ↔ id.type = .sequential := by
  obtain ⟨initiator, value⟩ := id
  subst h
  cases value <;> simp [SessionId.serverSeqnum, SessionId.type]

/-- After a block of session (id, algorithm), pouch p, has been decrypted and no block of
another session since, a header of the same session with a pouch id up to p is refused
exactly if the id is sequential and SESSION_VALID is still set, that is, no header has
been accepted since the last block. -/
theorem replayed_pouch_refused_iff (cfg : Config) (before between : List SaeadOp) (op : SaeadOp)
    (session : SessionInfo) (id : SessionId) (p : UInt16) (o : KeyOutcome)
    (hd : Decrypts cfg (saeadFinal cfg .boot before) op)
    (hid : (saeadFinal cfg .boot before).downlink.id = id)
    (ha : (saeadFinal cfg .boot before).downlink.algorithm = session.algorithm)
    (honly : OnlySession cfg id session.algorithm (saeadFinal cfg .boot (before++[op])) between)
    (hs : session.sessionId = some id) (ho : o.derives = true)
    (_hp : p ≤ (saeadFinal cfg .boot before).downlink.pouch.id) :
    (cryptoDownlinkStart cfg o (saeadFinal cfg .boot (before++[op]++between))
      (.saead session p)).1 ≠ .ok ↔
    id.type = .sequential ∧
      (saeadFinal cfg .boot (before++[op]++between)).downlink.flags.valid = true := by
  have hserver : id.initiator = .server :=
    hid ▸ server_of_decrypts (saeadFinal_inv cfg before) hd
  have hlast : LastSession id session.algorithm (saeadFinal cfg .boot (before++[op]++between)) := by
    have hone := lastSession_of_decrypt hd hid ha
    have hstep : (saeadStep cfg (saeadFinal cfg .boot before) op).1 =
        saeadFinal cfg .boot (before++[op]) := by
      simp [saeadFinal, final_append]
    rw [hstep] at hone
    have hrun := saeadFinal_lastSession (saeadFinal_inv cfg _) hone honly
    rwa [saeadFinal, ← final_append] at hrun
  have hinv := saeadFinal_inv cfg (before++[op]++between)
  generalize saeadFinal cfg .boot (before++[op]++between) = t at hlast hinv ⊢
  have hvalid : isValidDownlink t id session.algorithm = true ↔
      ¬ (id.type = .sequential ∧ t.downlink.flags.valid = true) := by
    rw [isValidDownlink_eq, ← serverSeqnum_isSome_iff hserver]
    cases hv : t.downlink.flags.valid with
    | false => simp
    | true =>
      have hsame := hlast.same hv
      cases hn : id.serverSeqnum with
      | none => simp [hsame.2]
      | some n => simp [hsame.2, hlast.seqnum n hn]
  have hok : (cryptoDownlinkStart cfg o t (.saead session p)).1 = .ok ↔
      isValidDownlink t id session.algorithm = true := by
    rw [cryptoDownlinkStart_ok_iff cfg hinv]
    simp [hs, hserver, ho]
  rw [ne_eq, hok, hvalid, not_not]

def saeadConfig : Config := .ofLog 9 .saead
def keysWork : KeyOutcome := ⟨true, true, true, true, true, true⟩
def opens : BlockOutcome :=
  ⟨true, fun _ _ _ _ input => some (input.take (input.length - authTagLen))⟩
def sealedBlock : Buf := 0 :: 17 :: List.replicate 17 0xC0

def serverSequential (seq : UInt64) : SessionInfo :=
  ⟨.sequential (List.replicate 8 0) seq, .server, false, 9⟩
def serverRandom : SessionInfo := ⟨.random (List.replicate 16 7), .server, false, 9⟩

def serverHeader (session : SessionInfo) (p : UInt16) : SaeadOp :=
  .header (.saead session p) keysWork
def goodBlock : SaeadOp := .decrypt sealedBlock opens

theorem replayed_sequential_pouch_refused :
    (cryptoDownlinkStart saeadConfig keysWork
      (saeadFinal saeadConfig .boot ([serverHeader (serverSequential 10) 3]++[goodBlock]++[]))
      (.saead (serverSequential 10) 3)).1 ≠ .ok := by
  have hrun := replayed_pouch_refused_iff saeadConfig [serverHeader (serverSequential 10) 3] []
    goodBlock (serverSequential 10) ⟨.server, .sequential (Vector.replicate 8 0) 10⟩ 3 keysWork
    ⟨[0, 1, 0xC0], rfl⟩ rfl rfl trivial rfl rfl (by decide)
  exact hrun.mpr ⟨rfl, rfl⟩

/-- A random session id is not checked at all: one block of pouch 3 has been decrypted,
and the same header is accepted again. -/
theorem replayed_random_pouch_accepted :
    Decrypts saeadConfig (saeadFinal saeadConfig .boot [serverHeader serverRandom 3]) goodBlock ∧
    (saeadFinal saeadConfig .boot [serverHeader serverRandom 3]).downlink.id =
      ⟨.server, .random (Vector.replicate 16 7)⟩ ∧
    (saeadFinal saeadConfig .boot [serverHeader serverRandom 3]).downlink.pouch.id = 3 ∧
    serverRandom.sessionId = some ⟨.server, .random (Vector.replicate 16 7)⟩ ∧
    (cryptoDownlinkStart saeadConfig keysWork
      (saeadFinal saeadConfig .boot [serverHeader serverRandom 3, goodBlock])
      (.saead serverRandom 3)).1 = .ok :=
  ⟨⟨[0, 1, 0xC0], rfl⟩, rfl, rfl, rfl, rfl⟩

end Pouch
