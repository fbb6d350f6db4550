import PouchNode.Replay

/-! Further pouches of a session. The sequence number of the last decrypted session is the
bound for the next header, and a sequential session does not pass it itself. -/
namespace Pouch
open Machine

def AcceptsHeader (cfg : Config) (s : Saead) : SaeadOp → Prop
  | .header info o => (cryptoDownlinkStart cfg o s info).1 = .ok
  | _ => False

structure InSessionOf (id : SessionId) (algorithm : PsaAlgorithm) (s : Saead) : Prop where
  inv : SaeadInv s
  valid : s.downlink.flags.valid = true
  last : LastSession id algorithm s

section
variable {cfg : Config} {s : Saead} {id : SessionId} {algorithm : PsaAlgorithm}

theorem valid_of_decrypt {op : SaeadOp} (hd : Decrypts cfg s op) :
    (saeadStep cfg s op).1.downlink.flags.valid = true := by
  obtain ⟨-, pouch, he⟩ := hd.step
  rw [he]

theorem valid_kept (hinv : SaeadInv s) (hv : s.downlink.flags.valid = true) {op : SaeadOp}
    (hop : ¬ AcceptsHeader cfg s op) : (saeadStep cfg s op).1.downlink.flags.valid = true := by
  cases op with
  | header info o =>
    cases cryptoDownlinkStart_cases cfg hinv o info with
    | inl hr =>
      obtain ⟨e, he⟩ := hr
      simpa [saeadStep, he] using hv
    | inr hr =>
      obtain ⟨session, pouchId, id', -, -, -, -, -, he⟩ := hr
      exact absurd (by simp [AcceptsHeader, he]) hop
  | decrypt block o =>
    cases saeadDownlinkBlockDecrypt_cases cfg s o block with
    | inl hr => simpa [saeadStep, hr] using hv
    | inr hr =>
      obtain ⟨-, d, pouch, -, he⟩ := hr
      simp only [saeadStep, he]
  | sessionEnd =>
    obtain ⟨-, -, -, hkept, -⟩ := cryptoSessionEnd_downlink s
    rw [saeadStep, hkept, hv]
  | uplinkStart rnd o alg =>
    obtain ⟨hd, -⟩ := uplinkStart_downlink (s := s) rnd o alg
    rw [saeadStep, hd, hv]

theorem InSessionOf.step (h : InSessionOf id algorithm s) {op : SaeadOp}
    (hop : ¬ AcceptsHeader cfg s op) : InSessionOf id algorithm (saeadStep cfg s op).1 :=
  ⟨saeadStep_inv cfg op h.inv, valid_kept h.inv h.valid hop,
    saeadStep_lastSession h.inv op h.last fun _ => h.last.same h.valid⟩

/-- In its own session the replay check only looks at the type of the id. -/
theorem InSessionOf.isValidDownlink_iff (h : InSessionOf id algorithm s)
    (hserver : id.initiator = .server) :
    isValidDownlink s id algorithm = true ↔ id.type = .random := by
  have hsame := h.last.same h.valid
  rw [isValidDownlink_eq, h.valid]
  cases hn : id.serverSeqnum with
  | none =>
    have hrandom : id.type ≠ .sequential := by
      intro ht
      have hsome := (serverSeqnum_isSome_iff hserver).mpr ht
      rw [hn] at hsome
      cases hsome
    cases ht : id.type with
    | sequential => exact absurd ht hrandom
    | random => simp [hsame.2]
  | some n =>
    have hseq : id.type = .sequential := (serverSeqnum_isSome_iff hserver).mp (by rw [hn]; rfl)
    simp [hseq, hsame.2, h.last.seqnum n hn]

end

/-- After a block of pouch p of a session has been decrypted, and no header accepted since,
a header of the same session with a greater pouch id is accepted exactly if the id of
the session is random. -/
theorem follow_up_accepted_iff (cfg : Config) (before between : List SaeadOp) (op : SaeadOp)
    (session : SessionInfo) (id : SessionId) (p q : UInt16) (o : KeyOutcome)
    (hd : Decrypts cfg (saeadFinal cfg .boot before) op)
    (hid : (saeadFinal cfg .boot before).downlink.id = id)
    (ha : (saeadFinal cfg .boot before).downlink.algorithm = session.algorithm)
    (_hp : (saeadFinal cfg .boot before).downlink.pouch.id = p)
    (hquiet : ∀ u i v, between = u++i :: v →
      ¬ AcceptsHeader cfg (saeadFinal cfg .boot (before++[op]++u)) i)
    (hs : session.sessionId = some id) (_hq : p < q) (ho : o.derives = true) :
    (cryptoDownlinkStart cfg o (saeadFinal cfg .boot (before++[op]++between))
      (.saead session q)).1 = .ok ↔ id.type = .random := by
  have hserver : id.initiator = .server :=
    hid ▸ server_of_decrypts (saeadFinal_inv cfg before) hd
  have hfirst : InSessionOf id session.algorithm (saeadFinal cfg .boot (before++[op])) := by
    rw [saeadFinal, final_snoc]
    exact ⟨saeadStep_inv cfg op (saeadFinal_inv cfg before), valid_of_decrypt hd,
      lastSession_of_decrypt hd hid ha⟩
  have hrun : InSessionOf id session.algorithm (saeadFinal cfg .boot (before++[op]++between)) := by
    rw [saeadFinal, final_append]
    refine guarded_invariant (saeadStep cfg) (A := fun s i => ¬ AcceptsHeader cfg s i)
      (fun s i hi h => h.step hi) _ hfirst between ?_ between [] (by simp)
    intro u i v hsplit
    rw [← final_append]
    exact hquiet u i v hsplit
  rw [cryptoDownlinkStart_ok_iff cfg hrun.inv, ← hrun.isValidDownlink_iff hserver]
  constructor
  · rintro ⟨id', hid', hv, -⟩
    rw [hs] at hid'
    cases hid'
    exact hv
  · exact fun hv => ⟨id, hs, hv, hserver, ho⟩

theorem follow_up_random_accepted :
    (cryptoDownlinkStart saeadConfig keysWork
      (saeadFinal saeadConfig .boot ([serverHeader serverRandom 3]++[goodBlock]++[]))
      (.saead serverRandom 4)).1 = .ok := by
  refine (follow_up_accepted_iff saeadConfig [serverHeader serverRandom 3] [] goodBlock
    serverRandom ⟨.server, .random (Vector.replicate 16 7)⟩ 3 4 keysWork
    ⟨[0, 1, 0xC0], rfl⟩ rfl rfl rfl ?_ rfl (by decide) rfl).mpr rfl
  intro u i v hsplit
  simp at hsplit

/-- Pouch 4 of the session with number 10 is refused after a block of pouch 3. -/
theorem follow_up_sequential_refused :
    Decrypts saeadConfig
      (saeadFinal saeadConfig .boot [serverHeader (serverSequential 10) 3]) goodBlock ∧
    (saeadFinal saeadConfig .boot [serverHeader (serverSequential 10) 3]).downlink.pouch.id = 3 ∧
    (serverSequential 10).sessionId = some
      (saeadFinal saeadConfig .boot [serverHeader (serverSequential 10) 3]).downlink.id ∧
    (saeadFinal saeadConfig .boot [serverHeader (serverSequential 10) 3]).downlink.algorithm =
      (serverSequential 10).algorithm ∧
    keysWork.derives = true ∧
    (cryptoDownlinkStart saeadConfig keysWork
      (saeadFinal saeadConfig .boot [serverHeader (serverSequential 10) 3, goodBlock])
      (.saead (serverSequential 10) 4)).1 = .err .ebadmsg :=
  ⟨⟨[0, 1, 0xC0], rfl⟩, rfl, rfl, rfl, rfl, rfl⟩

end Pouch
