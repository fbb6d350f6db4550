import PouchNode.Replay

/-! The guard on server sequence numbers over whole runs. The number of the last decrypted
sequential session is the greatest one as long as no old header slips in while
SESSION_VALID is cleared. -/
namespace Pouch
open Machine

section
variable (cfg : Config)

def blockSeqnum (s : Saead) (op : SaeadOp) : Option UInt64 :=
  match (saeadStep cfg s op).2 with
  | .decrypted (some _) => s.downlink.id.serverSeqnum
  | _ => none

def decryptedSeqnums (s : Saead) : List SaeadOp → List UInt64
  | [] => []
  | op :: ops => (blockSeqnum cfg s op).toList++decryptedSeqnums (saeadStep cfg s op).1 ops

def SeqnumGuarded (ops : List SaeadOp) : Prop :=
  (∀ u v w, ops = u++v++w →
    (saeadFinal cfg .boot u).server.seqnum ≤ (saeadFinal cfg .boot (u++v)).server.seqnum) ∧
  ∀ u v session p o id m, ops = u++.header (.saead session p) o :: v →
    session.sessionId = some id → id.serverSeqnum = some m →
    (∃ n ∈ decryptedSeqnums cfg .boot u, m ≤ n) →
    (saeadDownlinkSessionStart cfg o (saeadFinal cfg .boot u) id session.algorithm
      session.maxBlockSizeLog).1 ≠ .ok

/- Old headers for which a key can be derived only come while SESSION_VALID is set. -/
def OldHeadersMeetValid (ops : List SaeadOp) : Prop :=
  ∀ u v session p o id m, ops = u++.header (.saead session p) o :: v →
    session.sessionId = some id → id.serverSeqnum = some m →
    (∃ n ∈ decryptedSeqnums cfg .boot u, m ≤ n) → o.derives = true →
    (saeadFinal cfg .boot u).downlink.flags.valid = true

end

section
variable {cfg : Config}

theorem decryptedSeqnums_append (s : Saead) (u v : List SaeadOp) :
    decryptedSeqnums cfg s (u++v) =
      decryptedSeqnums cfg s u++decryptedSeqnums cfg (saeadFinal cfg s u) v := by
  induction u generalizing s with
  | nil => rfl
  | cons op u ih => simp [decryptedSeqnums, ih]

theorem decryptedSeqnums_snoc (u : List SaeadOp) (op : SaeadOp) :
    decryptedSeqnums cfg .boot (u++[op]) =
      decryptedSeqnums cfg .boot u++(blockSeqnum cfg (saeadFinal cfg .boot u) op).toList := by
  simp [decryptedSeqnums_append, decryptedSeqnums]

structure SeqnumInv (seqnums : List UInt64) (s : Saead) : Prop where
  bound : ∀ n ∈ seqnums, n ≤ s.server.seqnum
  attained : s.server.seqnum = 0 ∨ s.server.seqnum ∈ seqnums
  current : ∀ m, s.downlink.id.serverSeqnum = some m → s.server.seqnum ≤ m

theorem seqnumInv_boot : SeqnumInv [] .boot := by
  refine ⟨by simp, Or.inl rfl, ?_⟩
  intro m hm
  cases hm

theorem SeqnumInv.of_eq {seqnums : List UInt64} {s t : Saead} (h : SeqnumInv seqnums s)
    (hs : t.server = s.server) (hid : t.downlink.id = s.downlink.id) : SeqnumInv seqnums t := by
  refine ⟨?_, ?_, ?_⟩
  · rw [hs]
    exact h.bound
  · rw [hs]
    exact h.attained
  · rw [hs, hid]
    exact h.current

theorem SeqnumInv.decrypted {seqnums : List UInt64} {s t : Saead} (h : SeqnumInv seqnums s)
    (hs : t.server.seqnum = s.downlink.id.serverSeqnum.getD s.server.seqnum)
    (hid : t.downlink.id = s.downlink.id) :
    s.server.seqnum ≤ t.server.seqnum ∧ SeqnumInv (seqnums++s.downlink.id.serverSeqnum.toList) t := by
  cases hn : s.downlink.id.serverSeqnum with
  | none =>
    rw [hn] at hs
    refine ⟨UInt64.le_of_eq hs.symm, ?_⟩
    refine ⟨by simpa [hs] using h.bound, by simpa [hs] using h.attained, ?_⟩
    simp [hid, hn]
  | some m =>
    rw [hn] at hs
    have hle : s.server.seqnum ≤ t.server.seqnum := by
      rw [hs]
      exact h.current m hn
    refine ⟨hle, ⟨?_, Or.inr (by simp [hs]), ?_⟩⟩
    · intro n hmem
      cases List.mem_append.mp hmem with
      | inl hold => exact UInt64.le_trans (h.bound n hold) hle
      | inr hnew => simp_all
    · intro k hk
      rw [hid, hn] at hk
      cases hk
      exact UInt64.le_of_eq hs

/-- One step of a run in which an old header only comes while SESSION_VALID is set. -/
theorem saeadStep_seqnum {seqnums : List UInt64} {s : Saead} (hinv : SaeadInv s)
    (h : SeqnumInv seqnums s) (op : SaeadOp)
    (hop : ∀ session p o id m, op = .header (.saead session p) o → session.sessionId = some id →
      id.serverSeqnum = some m → (∃ n ∈ seqnums, m ≤ n) → o.derives = true →
      s.downlink.flags.valid = true) :
    s.server.seqnum ≤ (saeadStep cfg s op).1.server.seqnum ∧
    SeqnumInv (seqnums++(blockSeqnum cfg s op).toList) (saeadStep cfg s op).1 := by
  cases op with
  | header info o =>
    have hnone : blockSeqnum cfg s (.header info o) = none := by simp [blockSeqnum, saeadStep]
    rw [hnone, Option.toList_none, List.append_nil]
    cases cryptoDownlinkStart_cases cfg hinv o info with
    | inl hr =>
      obtain ⟨e, he⟩ := hr
      simp only [saeadStep, he]
      exact ⟨UInt64.le_refl _, h⟩
    | inr hr =>
      obtain ⟨session, p, id, rfl, hid, hv, -, ho, he⟩ := hr
      simp only [saeadStep, he]
      refine ⟨UInt64.le_refl _, ⟨h.bound, h.attained, ?_⟩⟩
      intro m hm
      change id.serverSeqnum = some m at hm
      change s.server.seqnum ≤ m
      by_cases hold : ∃ n ∈ seqnums, m ≤ n
      · -- then the replay check has compared the numbers
        have hval := hop session p o id m rfl hid hm hold ho
        cases (isValidDownlink_eq s id session.algorithm).mp hv with
        | inl hno => simp [hval] at hno
        | inr hchk => exact UInt64.le_of_lt (hchk.2 m hm)
      · cases h.attained with
        | inl hz => simp [hz]
        | inr hmem =>
          by_contra hgt
          exact hold ⟨_, hmem, UInt64.le_of_lt (UInt64.not_le.mp hgt)⟩
  | decrypt block o =>
    cases saeadDownlinkBlockDecrypt_cases cfg s o block with
    | inl hr =>
      have hnone : blockSeqnum cfg s (.decrypt block o) = none := by
        simp [blockSeqnum, saeadStep, hr]
      rw [hnone, Option.toList_none, List.append_nil]
      simp only [saeadStep, hr]
      exact ⟨UInt64.le_refl _, h⟩
    | inr hr =>
      obtain ⟨-, d, pouch, -, he⟩ := hr
      have hsome : blockSeqnum cfg s (.decrypt block o) = s.downlink.id.serverSeqnum := by
        simp [blockSeqnum, saeadStep, he]
      rw [hsome]
      apply h.decrypted
      · simp only [saeadStep, he]
      · simp only [saeadStep, he]
  | sessionEnd =>
    obtain ⟨hs, hid, -⟩ := cryptoSessionEnd_downlink s
    have hinv' := h.of_eq (t := (saeadStep cfg s .sessionEnd).1) hs hid
    refine ⟨by simp [saeadStep, hs], by simpa [blockSeqnum, saeadStep] using hinv'⟩
  | uplinkStart rnd o algorithm =>
    obtain ⟨hd, hs, -⟩ := uplinkStart_downlink (s := s) rnd o algorithm
    have hinv' := h.of_eq (t := (saeadStep cfg s (.uplinkStart rnd o algorithm)).1) hs
      (congrArg Session.id hd)
    refine ⟨by simp [saeadStep, hs], by simpa [blockSeqnum, saeadStep] using hinv'⟩

theorem OldHeadersMeetValid.of_append {u v : List SaeadOp} (h : OldHeadersMeetValid cfg (u++v)) :
    OldHeadersMeetValid cfg u := by
  intro u' v' session p o id m hu
  exact h u' (v'++v) session p o id m (by simp [hu])

theorem seqnumInv_run (ops : List SaeadOp) (h : OldHeadersMeetValid cfg ops) :
    SeqnumInv (decryptedSeqnums cfg .boot ops) (saeadFinal cfg .boot ops) := by
  induction ops using List.reverseRecOn with
  | nil => exact seqnumInv_boot
  | append_singleton u op ih =>
    rw [decryptedSeqnums_snoc, saeadFinal, final_snoc]
    refine (saeadStep_seqnum (saeadFinal_inv cfg u) (ih h.of_append) op ?_).2
    intro session p o id m hop
    exact h u [] session p o id m (by rw [hop])

theorem seqnum_mono (u v : List SaeadOp) (h : OldHeadersMeetValid cfg (u++v)) :
    (saeadFinal cfg .boot u).server.seqnum ≤ (saeadFinal cfg .boot (u++v)).server.seqnum := by
  induction v using List.reverseRecOn with
  | nil => simp
  | append_singleton v op ih =>
    rw [← List.append_assoc] at h ⊢
    apply UInt64.le_trans (ih h.of_append)
    rw [saeadFinal, final_snoc]
    refine (saeadStep_seqnum (saeadFinal_inv cfg _) (seqnumInv_run _ h.of_append) op ?_).1
    intro session p o id m hop
    exact h (u++v) [] session p o id m (by rw [hop])

end

theorem initiator_of_serverSeqnum {id : SessionId} {m : UInt64} (h : id.serverSeqnum = some m) :
    id.initiator = .server := by
  obtain ⟨initiator, value⟩ := id
  cases initiator with
  | device => simp [SessionId.serverSeqnum] at h
  | server => rfl

/-- The guard holds over a run exactly if every header that is no newer than a block
decrypted before it, and for which a key can be derived, arrives while SESSION_VALID
is set. -/
theorem seqnum_guarded_iff (cfg : Config) (ops : List SaeadOp) :
    SeqnumGuarded cfg ops ↔ OldHeadersMeetValid cfg ops := by
  constructor
  · intro h u v session p o id m hops hid hm hold ho
    have hrefused := h.2 u v session p o id m hops hid hm hold
    by_contra hv
    apply hrefused
    have hvalid : isValidDownlink (saeadFinal cfg .boot u) id session.algorithm = true :=
      (isValidDownlink_eq _ _ _).mpr (Or.inl (by simpa using hv))
    cases sessionStart_cases cfg (saeadFinal_inv cfg u) o id session.algorithm
        session.maxBlockSizeLog with
    | inl hr => exact absurd ⟨hvalid, initiator_of_serverSeqnum hm, ho⟩ hr.2
    | inr hr => rw [hr.2]
  · intro h
    constructor
    · intro u v w hops
      subst hops
      exact seqnum_mono u v h.of_append
    · intro u v session p o id m hops hid hm hold hok
      have hinv := seqnumInv_run u (OldHeadersMeetValid.of_append (hops ▸ h))
      cases sessionStart_cases cfg (saeadFinal_inv cfg u) o id session.algorithm
          session.maxBlockSizeLog with
      | inl hr =>
        obtain ⟨⟨e, he⟩, -⟩ := hr
        rw [he] at hok
        cases hok
      | inr hr =>
        obtain ⟨hv, -, ho⟩ := hr.1
        have hval := h u v session p o id m hops hid hm hold ho
        obtain ⟨n, hmem, hmn⟩ := hold
        cases (isValidDownlink_eq _ _ _).mp hv with
        | inl hno => simp [hval] at hno
        | inr hchk =>
          have hlt := hchk.2 m hm
          exact absurd (UInt64.le_trans hmn (hinv.bound n hmem)) (UInt64.not_le.mpr hlt)

/-- An unauthenticated random header lets session 5 in after session 10, and the record
falls back to 5. -/
theorem seqnum_falls_back :
    ¬ SeqnumGuarded saeadConfig [serverHeader (serverSequential 10) 1, goodBlock,
      serverHeader serverRandom 1, serverHeader (serverSequential 5) 1, goodBlock] := by
  intro h
  have hmono := h.1 [serverHeader (serverSequential 10) 1, goodBlock]
    [serverHeader serverRandom 1, serverHeader (serverSequential 5) 1, goodBlock] [] rfl
  have hold : (saeadFinal saeadConfig .boot [serverHeader (serverSequential 10) 1,
      goodBlock]).server.seqnum = 10 := rfl
  have hnew : (saeadFinal saeadConfig .boot ([serverHeader (serverSequential 10) 1, goodBlock]++
      [serverHeader serverRandom 1, serverHeader (serverSequential 5) 1,
        goodBlock])).server.seqnum = 5 := rfl
  rw [hold, hnew] at hmono
  exact absurd hmono (by decide)

end Pouch
