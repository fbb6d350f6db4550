import PouchNode.Replay
import PouchNode.UplinkSaead

/-! Starts that fail. A refused downlink header leaves the crypto layer as it was. A start of
the uplink session does not look at its key, and what crypto_session_start has done is not
undone when the pouch header cannot be made. -/
namespace Pouch

section
variable (cfg : Config) {s : Saead}

theorem saeadUplinkSessionKeyCopy_null (o : KeyOutcome)
    (h : (saeadUplinkSessionKeyCopy o s).1 = psaKeyIdNull) :
    (saeadUplinkSessionKeyCopy o s).2 = s.psa := by
  simp only [saeadUplinkSessionKeyCopy] at h ⊢
  split at h
  · simp [*]
  · split at h
    · cases h
    · simp [*]

theorem sessionKeyGenerate_null {o : KeyOutcome} {psa : Psa}
    (h : (sessionKeyGenerate o psa).1 = psaKeyIdNull) : (sessionKeyGenerate o psa).2 = psa := by
  rw [sessionKeyGenerate_eq] at h ⊢
  split at h
  · cases h
  · simp [*]

/-- No key is left in PSA without its handle. -/
theorem downlinkSessionKey_null {o : KeyOutcome} {id : SessionId} {algorithm : PsaAlgorithm}
    {log : UInt8} {psa : Psa}
    (h : downlinkSessionKey cfg o s id algorithm log = .ok (psaKeyIdNull, psa)) : psa = s.psa := by
  simp only [downlinkSessionKey] at h
  split at h
  · split at h
    · cases h
    · split at h
      · cases h
      · have hcopy := Except.ok.inj h
        have hnull := saeadUplinkSessionKeyCopy_null (s := s) o (by rw [hcopy])
        rwa [hcopy] at hnull
  · have hgenerate := Except.ok.inj h
    have hnull := sessionKeyGenerate_null (by rw [hgenerate])
    rwa [hgenerate] at hnull

/-- A session is refused before anything of it is stored, or it is active and has no pouch. -/
theorem saeadDownlinkSessionStart_cases (o : KeyOutcome) (s : Saead) (id : SessionId)
    (algorithm : PsaAlgorithm) (log : UInt8) :
    (∃ e, saeadDownlinkSessionStart cfg o s id algorithm log = (.err e, s)) ∨
    (saeadDownlinkSessionStart cfg o s id algorithm log).1 = .ok ∧
      (saeadDownlinkSessionStart cfg o s id algorithm log).2.downlink.flags =
        ⟨false, true, false⟩ := by
  cases hv : isValidDownlink s id algorithm with
  | false => exact Or.inl ⟨.ebadmsg, by simp [saeadDownlinkSessionStart, hv]⟩
  | true =>
    cases hk : downlinkSessionKey cfg o s id algorithm log with
    | error e => exact Or.inl ⟨e, by simp [saeadDownlinkSessionStart, hv, hk]⟩
    | ok made =>
      obtain ⟨key, psa⟩ := made
      by_cases hnull : key = psaKeyIdNull
      · subst hnull
        have hpsa := downlinkSessionKey_null cfg hk
        exact Or.inl ⟨.eio, by simp [saeadDownlinkSessionStart, hv, hk, hpsa]⟩
      · exact Or.inr (by simp [saeadDownlinkSessionStart, hv, hk, hnull])

/-- A header that is refused changes nothing: neither of the sessions, nor what is known of
the server, nor the keys in PSA. -/
theorem refused_header_changes_nothing (o : KeyOutcome) (s : Saead) (info : EncryptionInfo)
    (h : (cryptoDownlinkStart cfg o s info).1 ≠ .ok) : (cryptoDownlinkStart cfg o s info).2 = s := by
  cases info with
  | plaintext id => rfl
  | saead session pouchId =>
    cases hid : session.sessionId with
    | none => simp [cryptoDownlinkStart, hid]
    | some id =>
      cases saeadDownlinkSessionStart_cases cfg o s id session.algorithm session.maxBlockSizeLog with
      | inl hr =>
        obtain ⟨e, he⟩ := hr
        simp [cryptoDownlinkStart, hid, he]
      | inr hr =>
        -- what is left to check cannot fail: SESSION_HAS_POUCH is clear, SESSION_ACTIVE set
        cases ht : saeadDownlinkSessionStart cfg o s id session.algorithm
            session.maxBlockSizeLog with
        | mk ret t =>
          rw [ht] at hr
          obtain ⟨rfl, hflags⟩ : ret = .ok ∧ t.downlink.flags = ⟨false, true, false⟩ := hr
          refine absurd ?_ h
          simp [cryptoDownlinkStart, hid, ht, saeadDownlinkPouchStart, sessionPouchStart, hflags]

end

theorem refused_replay_changes_nothing :
    (cryptoDownlinkStart saeadConfig keysWork
      (saeadFinal saeadConfig .boot [serverHeader (serverSequential 10) 3, goodBlock])
      (.saead (serverSequential 10) 3)).2 =
      saeadFinal saeadConfig .boot [serverHeader (serverSequential 10) 3, goodBlock] :=
  refused_header_changes_nothing saeadConfig keysWork _ _ (by decide)

theorem saeadUplinkSessionStart_random {rnd : RandomOutcome} {value : Vector UInt8 16}
    (hr : rnd.value = some value) (o : KeyOutcome) (algorithm : PsaAlgorithm) (s : Saead) :
    saeadUplinkSessionStart rnd o algorithm s = (.ok, { s with
      psa := (sessionKeyGenerate o s.psa).2
      uplink := ⟨⟨.device, .random value⟩, ⟨true, true, false⟩, algorithm,
        (sessionKeyGenerate o s.psa).1, { s.uplink.pouch with id := 0 }⟩ }) := by
  simp only [saeadUplinkSessionStart, sessionIdGenerate, hr]

theorem saeadUplinkSessionStart_noRandom {rnd : RandomOutcome} (hr : rnd.value = none)
    (o : KeyOutcome) (algorithm : PsaAlgorithm) (s : Saead) :
    saeadUplinkSessionStart rnd o algorithm s = (.err .eio, { s with
      uplink := { s.uplink with
        flags := .init, id := ⟨.device, .random s.uplink.id.value.bytes⟩ } }) := by
  simp only [saeadUplinkSessionStart, sessionIdGenerate, hr]

section
variable {cfg : Config} (env : SaeadEnv cfg) (s : Uplink SaeadCrypto)

def nextRandom : RandomOutcome := (env.start s.crypto.starts).1
def nextKey : KeyOutcome := (env.start s.crypto.starts).2

def nextHeader : Option Buf := env.header (s.crypto.starts + 1)

theorem saeadStart_noRandom (hidle : s.sessionActive = false)
    (hr : (nextRandom env s).value = none) :
    ∃ uplink, uplink.flags = .init ∧ uplink.key = s.crypto.saead.uplink.key ∧
      pouchUplinkStart (saeadCrypto env) s = (false, { s with crypto :=
        ⟨{ s.crypto.saead with uplink }, s.crypto.starts + 1, s.crypto.blocks⟩ }) := by
  refine ⟨{ s.crypto.saead.uplink with
    flags := .init, id := ⟨.device, .random s.crypto.saead.uplink.id.value.bytes⟩ }, rfl, rfl, ?_⟩
  have hsession := saeadUplinkSessionStart_noRandom hr (nextKey env s) env.algorithm s.crypto.saead
  simp only [nextRandom, nextKey] at hsession
  simp [pouchUplinkStart, hidle, saeadCrypto, hsession]

/-- With a session id the session is active whatever becomes of its key, and only the header
is left to fail. -/
theorem saeadStart_random (hidle : s.sessionActive = false) {value : Vector UInt8 16}
    (hr : (nextRandom env s).value = some value) :
    ∃ k : SaeadCrypto, k.saead.uplink.flags.active = true ∧
      k.saead.uplink.key = (sessionKeyGenerate (nextKey env s) s.crypto.saead.psa).1 ∧
      k.saead.psa = (sessionKeyGenerate (nextKey env s) s.crypto.saead.psa).2 ∧
      (nextHeader env s = none ∧
          pouchUplinkStart (saeadCrypto env) s = (false, { s with header := none, crypto := k }) ∨
        (nextHeader env s).isSome = true ∧ (pouchUplinkStart (saeadCrypto env) s).1 = true ∧
          (pouchUplinkStart (saeadCrypto env) s).2.crypto = k) := by
  have hsession := saeadUplinkSessionStart_random hr (nextKey env s) env.algorithm s.crypto.saead
  generalize hmade : sessionKeyGenerate (nextKey env s) s.crypto.saead.psa = made at hsession
  simp only [nextRandom, nextKey] at hsession
  refine ⟨⟨{ s.crypto.saead with
    psa := made.2
    uplink := ⟨⟨.device, .random value⟩, ⟨true, true, false⟩, env.algorithm, made.1,
      { s.crypto.saead.uplink.pouch with id := 1, blockIndex := 0 }⟩ },
    s.crypto.starts + 1, s.crypto.blocks⟩, rfl, rfl, rfl, ?_⟩
  cases hh : nextHeader env s with
  | none =>
    simp only [nextHeader] at hh
    exact Or.inl ⟨rfl, by
      simp [pouchUplinkStart, hidle, saeadCrypto, hsession, saeadUplinkPouchStart,
        sessionPouchStart, hh]⟩
  | some header =>
    simp only [nextHeader] at hh
    exact Or.inr (by
      simp [pouchUplinkStart, hidle, saeadCrypto, hsession, saeadUplinkPouchStart,
        sessionPouchStart, hh])

structure StartsWithKey : Prop where
  session : (saeadUplinkSessionStart (nextRandom env s) (nextKey env s) env.algorithm
      s.crypto.saead).1 = .ok →
    (saeadUplinkSessionStart (nextRandom env s) (nextKey env s) env.algorithm
      s.crypto.saead).2.uplink.key ≠ psaKeyIdNull
  start : (pouchUplinkStart (saeadCrypto env) s).1 = true →
    (pouchUplinkStart (saeadCrypto env) s).2.crypto.saead.uplink.key ≠ psaKeyIdNull

theorem sessionKeyGenerate_ne_null_iff (o : KeyOutcome) (psa : Psa) :
    (sessionKeyGenerate o psa).1 ≠ psaKeyIdNull ↔ o.derives = true := by
  rw [sessionKeyGenerate_eq]
  cases o.derives with
  | false => simp
  | true => simp [Psa.create, psaKeyIdNull]

/-- A start of the uplink session that is reported as successful comes with a key exactly if
the derivation succeeds, or there is not even a random id and nothing is reported. -/
theorem started_session_has_key_iff :
    StartsWithKey env s ↔
      (nextRandom env s).value = none ∨ (nextKey env s).derives = true := by
  cases hr : (nextRandom env s).value with
  | none =>
    refine iff_of_true ⟨?_, ?_⟩ (Or.inl rfl)
    · rw [saeadUplinkSessionStart_noRandom hr]
      intro hok
      cases hok
    · intro hstarted
      cases ha : s.sessionActive with
      | true => simp [pouchUplinkStart, ha] at hstarted
      | false =>
        obtain ⟨uplink, -, -, he⟩ := saeadStart_noRandom env s ha hr
        rw [he] at hstarted
        cases hstarted
  | some value =>
    have hkey := sessionKeyGenerate_ne_null_iff (nextKey env s) s.crypto.saead.psa
    constructor
    · intro h
      have hsession := h.session
      rw [saeadUplinkSessionStart_random hr] at hsession
      exact Or.inr (hkey.mp (hsession rfl))
    · intro h
      have hderives : (nextKey env s).derives = true := h.resolve_left (by simp)
      refine ⟨?_, ?_⟩
      · rw [saeadUplinkSessionStart_random hr]
        exact fun _ => hkey.mpr hderives
      · intro hstarted
        cases ha : s.sessionActive with
        | true => simp [pouchUplinkStart, ha] at hstarted
        | false =>
          obtain ⟨k, -, hk, -, hend⟩ := saeadStart_random env s ha hr
          cases hend with
          | inl hfailed =>
            rw [hfailed.2] at hstarted
            cases hstarted
          | inr hbegun =>
            rw [hbegun.2.2, hk]
            exact hkey.mpr hderives

structure StartUndone (t : Uplink SaeadCrypto) : Prop where
  flags : t.sessionActive = s.sessionActive ∧ t.pouchClosing = s.pouchClosing ∧
    t.pouchClosed = s.pouchClosed
  header : t.header = s.header
  queues : t.processing = s.processing ∧ t.transport = s.transport ∧ t.reader = s.reader
  active : t.crypto.saead.uplink.flags.active = s.crypto.saead.uplink.flags.active
  keys : t.crypto.saead.psa.live = s.crypto.saead.psa.live

theorem sessionKeyGenerate_live_iff (o : KeyOutcome) (psa : Psa) :
    (sessionKeyGenerate o psa).2.live = psa.live ↔ o.derives = false := by
  rw [sessionKeyGenerate_eq]
  cases o.derives with
  | false => simp
  | true => simp [Psa.create]

/-- A start that fails leaves nothing behind exactly if it fails for want of a random id and
finds the crypto layer without a session, or for want of a header and an earlier failure has
left the session active, with no key derived now and no header from before. -/
theorem failed_start_undone_iff (hidle : s.sessionActive = false) :
    ((pouchUplinkStart (saeadCrypto env) s).1 = false →
      StartUndone s (pouchUplinkStart (saeadCrypto env) s).2) ↔
    ((nextRandom env s).value = none → s.crypto.saead.uplink.flags.active = false) ∧
    ((nextRandom env s).value.isSome = true → nextHeader env s = none →
      s.crypto.saead.uplink.flags.active = true ∧ (nextKey env s).derives = false ∧
        s.header = none) := by
  cases hr : (nextRandom env s).value with
  | none =>
    obtain ⟨uplink, hflags, -, he⟩ := saeadStart_noRandom env s hidle hr
    rw [he]
    constructor
    · intro h
      refine ⟨fun _ => ?_, fun hsome => by cases hsome⟩
      have hactive := (h rfl).active
      simpa [hflags, SessionFlags.init] using hactive.symm
    · intro h _
      refine ⟨⟨rfl, rfl, rfl⟩, rfl, ⟨rfl, rfl, rfl⟩, ?_, rfl⟩
      rw [h.1 rfl]
      simp [hflags, SessionFlags.init]
  | some value =>
    obtain ⟨k, hactive, -, hpsa, hend⟩ := saeadStart_random env s hidle hr
    have hlive := sessionKeyGenerate_live_iff (nextKey env s) s.crypto.saead.psa
    rw [← hpsa] at hlive
    cases hend with
    | inr hbegun =>
      refine iff_of_true ?_ ⟨fun hno => (by cases hno), fun _ hnone => ?_⟩
      · intro hfailed
        rw [hbegun.2.1] at hfailed
        cases hfailed
      · have hsome := hbegun.1
        rw [hnone] at hsome
        cases hsome
    | inl hfailed =>
      rw [hfailed.2]
      constructor
      · intro h
        refine ⟨fun hno => (by cases hno), fun _ _ => ⟨?_, ?_, ?_⟩⟩
        · rw [← (h rfl).active]
          exact hactive
        · exact hlive.mp (h rfl).keys
        · exact (h rfl).header.symm
      · rintro ⟨-, h⟩ -
        obtain ⟨hbefore, hderives, hnone⟩ := h rfl hfailed.1
        exact ⟨⟨rfl, rfl, rfl⟩, hnone.symm, ⟨rfl, rfl, rfl⟩, hactive.trans hbefore.symm,
          hlive.mpr hderives⟩

end

def startEnv (rnd : RandomOutcome) (o : KeyOutcome) (hasHeader : Bool) : SaeadEnv holeConfig where
  start _ := (rnd, o)
  algorithm := .chacha20Poly1305
  header _ := if hasHeader then some holeHeader else none
  header_lt := by
    intro n h hh
    split at hh
    · cases hh
      decide
    · cases hh
  alloc _ := true
  answer _ := none

/-- No server certificate has been installed, and the session starts without a key. -/
theorem session_without_key :
    ¬ StartsWithKey (startEnv firstRandom ⟨false, true, true, true, true, true⟩ true) (.boot .boot) ∧
    (pouchUplinkStart (saeadCrypto (startEnv firstRandom ⟨false, true, true, true, true, true⟩ true))
      (.boot .boot)).1 = true := by
  refine ⟨fun h => ?_, by decide⟩
  exact h.start (by decide) (by decide)

theorem random_failure_undone :
    StartUndone (.boot .boot)
      (pouchUplinkStart (saeadCrypto (startEnv ⟨none, none⟩ firstKeys true)) (.boot .boot)).2 :=
  (failed_start_undone_iff (startEnv ⟨none, none⟩ firstKeys true) (.boot .boot) rfl).mpr
    ⟨fun _ => rfl, fun hsome => (by cases hsome)⟩ (by decide)

/-- The device certificate is missing: the start fails, and leaves an active session and its
key in the crypto layer. -/
theorem header_failure_leaves_key :
    (pouchUplinkStart (saeadCrypto (startEnv firstRandom firstKeys false)) (.boot .boot)).1 = false ∧
    ¬ StartUndone (.boot .boot)
      (pouchUplinkStart (saeadCrypto (startEnv firstRandom firstKeys false)) (.boot .boot)).2 := by
  refine ⟨by decide, fun h => ?_⟩
  exact absurd h.keys (by decide)

end Pouch
