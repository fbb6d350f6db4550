import PouchNode.Buf
import Mathlib.Tactic.ByContra

/-! Installation of the server certificate (cert_server_set in cert.c). The key is exported
into the record that is in use, and every way out of the function returns the same variable.
The answers of mbedTLS are given. -/
namespace Pouch

def certSerialMaxlen : Nat := 20

def copyTo {n : Nat} (dst : Vector UInt8 n) (src : Buf) : Vector UInt8 n :=
  Vector.ofFn fun i => src.getD i (dst.get i)

structure LenArray (n : Nat) where
  data : Vector UInt8 n
  len : Nat
  deriving DecidableEq

def LenArray.value {n : Nat} (a : LenArray n) : Buf := a.data.toList.take a.len

def LenArray.store {n : Nat} (a : LenArray n) (bytes : Buf) : LenArray n :=
  ⟨copyTo a.data bytes, bytes.length⟩

theorem LenArray.value_length {n : Nat} (a : LenArray n) : a.value.length ≤ n := by
  simp [LenArray.value]

theorem LenArray.store_value {n : Nat} (a : LenArray n) (bytes : Buf) (h : bytes.length ≤ n) :
    (a.store bytes).value = bytes := by
  apply List.ext_getElem
  · simpa [LenArray.store, LenArray.value] using h
  · intro i hi hb
    simp [LenArray.store, LenArray.value, copyTo, hb]

structure PouchCert where
  buffer : Option Buf
  size : Nat
  deriving DecidableEq

def certIsValid : Option PouchCert → Bool
  | none => false
  | some cert => cert.buffer.isSome && decide (0 < cert.size)

inductive CertRet where
  | ok | einval | eio | eperm
  deriving DecidableEq, Repr

/- What is looked at of a parsed certificate: its serial number, and its key in uncompressed
   form, if it is one that mbedtls_pk_ec returns. -/
structure X509Crt where
  serial : Buf
  key : Option Buf
  deriving DecidableEq

structure ServerCertState (pubkeyLen : Nat) where
  pubkey : LenArray pubkeyLen
  serial : LenArray certSerialMaxlen
  loaded : Bool
  deriving DecidableEq

structure CertConfig where
  validateServerCert : Bool
  rawCaCert : Buf

/- The answers of mbedTLS to one call: to the parsing of the certificate and of the CA's, to
   the verification, and to the export of the key, which may report an error when it has
   already written a length and data. An export without error has fitted. -/
structure CertAnswers (pubkeyLen : Nat) where
  parse : Option X509Crt
  parseCa : Bool
  verify : Bool
  exportError : Option (LenArray pubkeyLen)
  fits : ∀ crt key, parse = some crt → crt.key = some key → exportError = none →
    key.length ≤ pubkeyLen

section
variable {pubkeyLen : Nat}

def parseX509Cert {γ : Type*} (cert : Option PouchCert) (parsed : Option γ) : Except CertRet γ :=
  if !certIsValid cert then .error .einval
  else
    match parsed with
    | none => .error .eio
    | some crt => .ok crt

def loadCaCert (cfg : CertConfig) (parseCa : Bool) (loaded : Bool) : Bool × Bool :=
  if loaded then (true, true)
  else
    match parseX509Cert (some ⟨some cfg.rawCaCert, cfg.rawCaCert.length⟩)
        (if parseCa then some () else none) with
    | .error _ => (false, false)
    | .ok _ => (true, true)

def authenticateServerCert (cfg : CertConfig) (answers : CertAnswers pubkeyLen)
    (s : ServerCertState pubkeyLen) : CertRet × ServerCertState pubkeyLen :=
  let (caCert, loaded) := loadCaCert cfg answers.parseCa s.loaded
  (if !caCert then .eio else if answers.verify then .ok else .eperm, { s with loaded })

def extractPubkey (key : Option Buf) (exportError : Option (LenArray pubkeyLen))
    (out : LenArray pubkeyLen) : CertRet × LenArray pubkeyLen :=
  match key with
  | none => (.eio, out)
  | some key =>
    match exportError with
    | some written => (.eio, written)
    | none => (.ok, out.store key)

/- From the parsed certificate on. A serial number that is too long leaves err at 0. -/
def certServerInstall (cfg : CertConfig) (answers : CertAnswers pubkeyLen) (crt : X509Crt)
    (s : ServerCertState pubkeyLen) : CertRet × ServerCertState pubkeyLen :=
  let (err, s) :=
    if cfg.validateServerCert then authenticateServerCert cfg answers s else (.ok, s)
  if err ≠ .ok then (err, s)
  else if certSerialMaxlen < crt.serial.length then (err, s)
  else
    let (err, pubkey) := extractPubkey crt.key answers.exportError s.pubkey
    if err ≠ .ok then (err, { s with pubkey })
    else (err, { s with pubkey, serial := s.serial.store crt.serial })

def certServerSet (cfg : CertConfig) (certbuf : Option PouchCert) (answers : CertAnswers pubkeyLen)
    (s : ServerCertState pubkeyLen) : CertRet × ServerCertState pubkeyLen :=
  if !certIsValid certbuf then (.einval, s)
  else
    match parseX509Cert certbuf answers.parse with
    | .error err => (err, s)
    | .ok crt => certServerInstall cfg answers crt s

/- Both are set to the values of the certificate, or both are as before, and the return value
   says which. -/
structure InstallsWhole (answers : CertAnswers pubkeyLen) (before : ServerCertState pubkeyLen)
    (r : CertRet × ServerCertState pubkeyLen) : Prop where
  success : r.1 = .ok → ∃ crt key, answers.parse = some crt ∧ crt.key = some key ∧
    r.2.pubkey.value = key ∧ r.2.serial.value = crt.serial
  failure : r.1 ≠ .ok → r.2.pubkey = before.pubkey ∧ r.2.serial = before.serial

def Authentic (cfg : CertConfig) (answers : CertAnswers pubkeyLen)
    (s : ServerCertState pubkeyLen) : Prop :=
  cfg.validateServerCert = true →
    (s.loaded = true ∨ cfg.rawCaCert ≠ [] ∧ answers.parseCa = true) ∧ answers.verify = true

def Installable (answers : CertAnswers pubkeyLen) (crt : X509Crt)
    (s : ServerCertState pubkeyLen) : Prop :=
  crt.serial.length ≤ certSerialMaxlen ∧
    ∀ written, crt.key ≠ none → answers.exportError = some written → written = s.pubkey

theorem loadCaCert_fst (cfg : CertConfig) (parseCa loaded : Bool) :
    (loadCaCert cfg parseCa loaded).1 = true ↔
      loaded = true ∨ cfg.rawCaCert ≠ [] ∧ parseCa = true := by
  cases loaded with
  | true => simp [loadCaCert]
  | false =>
    cases parseCa with
    | true => cases h : cfg.rawCaCert <;> simp [loadCaCert, parseX509Cert, certIsValid, h]
    | false => cases h : cfg.rawCaCert <;> simp [loadCaCert, parseX509Cert, certIsValid, h]

theorem authenticateServerCert_ok (cfg : CertConfig) (answers : CertAnswers pubkeyLen)
    (s : ServerCertState pubkeyLen) :
    (authenticateServerCert cfg answers s).1 = .ok ↔
      (s.loaded = true ∨ cfg.rawCaCert ≠ [] ∧ answers.parseCa = true) ∧ answers.verify = true := by
  rw [← loadCaCert_fst]
  simp only [authenticateServerCert]
  cases (loadCaCert cfg answers.parseCa s.loaded).1 with
  | false => simp
  | true => cases answers.verify <;> simp

theorem extractPubkey_cases (answers : CertAnswers pubkeyLen) (crt : X509Crt)
    (hparse : answers.parse = some crt) (out : LenArray pubkeyLen) :
    (∃ key, crt.key = some key ∧ answers.exportError = none ∧ key.length ≤ pubkeyLen ∧
      extractPubkey crt.key answers.exportError out = (.ok, out.store key)) ∨
    (crt.key = none ∧ extractPubkey crt.key answers.exportError out = (.eio, out)) ∨
    ∃ written, crt.key ≠ none ∧ answers.exportError = some written ∧
      extractPubkey crt.key answers.exportError out = (.eio, written) := by
  cases hkey : crt.key with
  | none => exact Or.inr (Or.inl ⟨rfl, rfl⟩)
  | some key =>
    cases hexport : answers.exportError with
    | none => exact Or.inl ⟨key, rfl, rfl, answers.fits crt key hparse hkey hexport, rfl⟩
    | some written => exact Or.inr (Or.inr ⟨written, by simp, rfl, rfl⟩)

/-- A certificate that is authentic is installed whole exactly if it is installable. -/
theorem installsWhole_iff (answers : CertAnswers pubkeyLen) (crt : X509Crt)
    (hparse : answers.parse = some crt) (before s : ServerCertState pubkeyLen)
    (hpubkey : s.pubkey = before.pubkey) (hserial : s.serial = before.serial) :
    InstallsWhole answers before
      (if certSerialMaxlen < crt.serial.length then (.ok, s)
        else
          let (err, pubkey) := extractPubkey crt.key answers.exportError s.pubkey
          if err ≠ .ok then (err, { s with pubkey })
          else (err, { s with pubkey, serial := s.serial.store crt.serial })) ↔
      Installable answers crt before := by
  by_cases hlong : certSerialMaxlen < crt.serial.length
  · rw [if_pos hlong]
    refine iff_of_false (fun h => ?_) (fun h => absurd h.1 (Nat.not_le.mpr hlong))
    obtain ⟨crt', key, hparse', -, -, hvalue⟩ := h.success rfl
    obtain rfl : crt = crt' := Option.some.inj (hparse.symm.trans hparse')
    have hle := s.serial.value_length
    rw [hvalue] at hle
    exact absurd hle (Nat.not_le.mpr hlong)
  · have hshort : crt.serial.length ≤ certSerialMaxlen := Nat.le_of_not_lt hlong
    rw [if_neg hlong]
    rcases extractPubkey_cases answers crt hparse s.pubkey with
      ⟨key, hkey, hexport, hfits, heq⟩ | ⟨hkey, heq⟩ | ⟨written, hkey, hexport, heq⟩
    · refine iff_of_true ⟨fun _ => ?_, fun h => ?_⟩ ⟨hshort, fun written _ h => ?_⟩
      · simp only [heq]
        exact ⟨crt, key, hparse, hkey, s.pubkey.store_value key hfits,
          s.serial.store_value crt.serial hshort⟩
      · simp only [heq] at h
        exact absurd rfl h
      · rw [hexport] at h
        cases h
    · refine iff_of_true ⟨fun h => ?_, fun _ => ?_⟩ ⟨hshort, fun _ h => absurd hkey h⟩
      · simp only [heq] at h
        cases h
      · simp only [heq]
        exact ⟨hpubkey, hserial⟩
    · simp only [heq]
      constructor
      · intro h
        refine ⟨hshort, fun written' _ hwritten => ?_⟩
        obtain rfl : written = written' := Option.some.inj (hexport.symm.trans hwritten)
        exact (h.failure fun hok => (by cases hok)).1
      · intro h
        exact ⟨fun hok => (by cases hok), fun _ => ⟨h.2 written hkey hexport, hserial⟩⟩

/-- The whole of cert_server_set, for every certificate and every answer of mbedTLS. -/
theorem certServerSet_installs_whole_iff (cfg : CertConfig) (certbuf : Option PouchCert)
    (answers : CertAnswers pubkeyLen) (s : ServerCertState pubkeyLen) :
    InstallsWhole answers s (certServerSet cfg certbuf answers s) ↔
      ∀ crt, certIsValid certbuf = true → answers.parse = some crt → Authentic cfg answers s →
        Installable answers crt s := by
  have hunchanged : ∀ err, err ≠ CertRet.ok → InstallsWhole answers s (err, s) := fun err herr =>
    ⟨fun hok => absurd hok herr, fun _ => ⟨rfl, rfl⟩⟩
  unfold certServerSet
  cases hvalid : certIsValid certbuf with
  | false =>
    exact iff_of_true (hunchanged .einval (by decide)) fun _ h => (by cases h)
  | true =>
    cases hparse : answers.parse with
    | none =>
      refine iff_of_true ?_ fun _ _ h => (by cases h)
      simpa [parseX509Cert, hvalid] using hunchanged .eio (by decide)
    | some crt =>
      have hcrt : (∀ crt', true = true → some crt = some crt' → Authentic cfg answers s →
          Installable answers crt' s) ↔ (Authentic cfg answers s → Installable answers crt s) := by
        constructor
        · exact fun h => h crt rfl rfl
        · rintro h crt' - heq
          obtain rfl : crt = crt' := Option.some.inj heq
          exact h
      rw [hcrt]
      simp only [parseX509Cert, hvalid, Bool.not_true, Bool.false_eq_true, if_false,
        certServerInstall]
      cases hvalidate : cfg.validateServerCert with
      | false =>
        have hauthentic : Authentic cfg answers s := fun h => by
          rw [hvalidate] at h
          cases h
        simp only [Bool.false_eq_true, if_false, ne_eq, not_true, forall_prop_of_true hauthentic]
        exact installsWhole_iff answers crt hparse s s rfl rfl
      | true =>
        have hauthentic : (authenticateServerCert cfg answers s).1 = .ok ↔ Authentic cfg answers s := by
          rw [authenticateServerCert_ok, Authentic, hvalidate, forall_prop_of_true rfl]
        simp only [if_true]
        by_cases hok : (authenticateServerCert cfg answers s).1 = .ok
        · simp only [hok, ne_eq, not_true, if_false, forall_prop_of_true (hauthentic.mp hok)]
          exact installsWhole_iff answers crt hparse s _ rfl rfl
        · simp only [hok, ne_eq, not_false_eq_true, if_true]
          refine iff_of_true ⟨fun h => absurd h hok, fun _ => ⟨rfl, rfl⟩⟩ fun h => ?_
          exact absurd (hauthentic.mpr h) hok

end

def installed : ServerCertState 65 :=
  { pubkey := ⟨Vector.replicate 65 1, 1⟩
    serial := ⟨Vector.replicate 20 1, 1⟩
    loaded := false }
def someCertbuf : Option PouchCert := some ⟨some [0x30], 1⟩
def noValidation : CertConfig := ⟨false, []⟩

def longSerial : CertAnswers 65 where
  parse := some ⟨List.replicate 21 2, some [2]⟩
  parseCa := false
  verify := false
  exportError := none
  fits crt key hcrt hkey _ := by
    cases hcrt
    cases hkey
    decide

def brokenExport : CertAnswers 65 where
  parse := some ⟨[2], some [2]⟩
  parseCa := false
  verify := false
  exportError := some ⟨Vector.replicate 65 0, 0⟩
  fits _ _ _ _ h := by cases h

/-- A certificate with a long serial number is reported as installed when it is not; one whose
key cannot be exported is reported as not installed, and the key before is gone. -/
theorem certServerSet_not_whole :
    certServerSet noValidation someCertbuf longSerial installed = (.ok, installed) ∧
    (certServerSet noValidation someCertbuf brokenExport installed).1 = .eio ∧
    (certServerSet noValidation someCertbuf brokenExport installed).2.pubkey.len = 0 ∧
    ¬ InstallsWhole longSerial installed
      (certServerSet noValidation someCertbuf longSerial installed) ∧
    ¬ InstallsWhole brokenExport installed
      (certServerSet noValidation someCertbuf brokenExport installed) := by
  refine ⟨rfl, rfl, rfl, fun h => ?_, fun h => ?_⟩
  · obtain ⟨crt, key, hcrt, -, -, hserial⟩ := h.success rfl
    cases hcrt
    exact absurd hserial (by decide)
  · exact absurd (h.failure (by decide)).1 (by decide)

end Pouch
