import PouchNode.CertServer
import PouchNode.Characteristic

/-! The device certificate: how it is set and referred to (cert.c), and the characteristic that
it is read from (device_cert_characteristic.c), which works on a copy of the record. -/
namespace Pouch
open Machine

def certRefLen : Nat := 32

abbrev CertRef := Vector UInt8 certRefLen

def PouchCert.data (cert : PouchCert) : Buf := (cert.buffer.getD []).take cert.size

def PouchCert.Sized (cert : PouchCert) : Prop := ∀ b, cert.buffer = some b → b.length = cert.size

structure DeviceCert where
  certificate : PouchCert
  ref : CertRef
  cert : Buf

def DeviceCert.boot : DeviceCert := ⟨⟨none, 0⟩, Vector.replicate certRefLen 0, []⟩

/- cert_device_set with the answer of the crypto library to the hash: it comes with what has
   been written if it fails. -/
structure DeviceSet where
  cert : Option PouchCert
  hashError : Option CertRef
  sized : ∀ c, cert = some c → c.Sized

section
variable (sha256 : Buf → CertRef)

def generateRef (cert : PouchCert) (hashError : Option CertRef) : CertRet × CertRef :=
  match hashError with
  | some written => (.eio, written)
  | none => (.ok, sha256 cert.data)

def certDeviceSet (s : DeviceCert) (op : DeviceSet) : CertRet × DeviceCert :=
  match op.cert with
  | none => (.einval, s)
  | some cert =>
    if !certIsValid (some cert) then (.einval, s)
    else
      let (err, ref) := generateRef sha256 cert op.hashError
      if err ≠ .ok then (err, { s with ref })
      else (.ok, { s with ref, certificate := cert })

end

def certRefGet (s : DeviceCert) : Option CertRef :=
  if !certIsValid (some s.certificate) then none else some s.ref

def pouchDeviceCertificateRefGet (len : Nat) (s : DeviceCert) : Except CertRet Buf :=
  if !certIsValid (some s.certificate) || decide (certRefLen < len) then .error .einval
  else .ok (s.ref.toList.take len)

def pouchDeviceCertificateGet (s : DeviceCert) : Option PouchCert :=
  if !certIsValid (some s.certificate) then none else some s.certificate

def deviceCertRead : ReadHandler Unit DeviceCert Unit where
  start malloc s :=
    match pouchDeviceCertificateGet s with
    | none => (.error .notSupported, s)
    | some cert => (.ok (packetizerStartCallback malloc ()), { s with cert := cert.data })
  cb arg maxlen s :=
    match deviceCertFillCb arg maxlen s.cert with
    | .ok (filled, cert) => .ok (filled, { s with cert })
  failed := .unlikely
  noPacketizer := ()

def DeviceCert.current (s : DeviceCert) : Option Buf :=
  (pouchDeviceCertificateGet s).map PouchCert.data

theorem deviceCertRead_readable :
    Readable deviceCertRead DeviceCert.current DeviceCert.cert fun _ => True where
  refused malloc s h := by
    have hnone : pouchDeviceCertificateGet s = none := Option.map_eq_none_iff.mp h
    exact ⟨.notSupported, s, by simp [deviceCertRead, hnone], rfl, h⟩
  started s data h := by
    obtain ⟨cert, hget, rfl⟩ := Option.map_eq_some_iff.mp h
    refine ⟨.callback (), { s with cert := cert.data },
      by simp [deviceCertRead, hget, packetizerStartCallback], h, Or.inr ⟨rfl, rfl, trivial⟩⟩
  filled n s hn _ := by
    refine ⟨{ s with cert := s.cert.drop n }, ?_, rfl, trivial, rfl⟩
    by_cases hfits : s.cert.length ≤ n
    · simp [deviceCertRead, deviceCertFillCb, hfits]
    · have hmin : min n s.cert.length = n := Nat.min_eq_left (Nat.le_of_not_le hfits)
      have hmore : ¬ s.cert.length - n = 0 := by omega
      simp [deviceCertRead, deviceCertFillCb, hfits, hmin, hmore]
  failed := rfl

section
variable (sha256 : Buf → CertRef)

def deviceAct (s : DeviceCert) (op : DeviceSet) : DeviceCert := (certDeviceSet sha256 s op).2

theorem certDeviceSet_cases (s : DeviceCert) (op : DeviceSet) :
    ((certDeviceSet sha256 s op) = (.einval, s) ∧
      ∀ c, op.cert = some c → certIsValid (some c) = false) ∨
    ∃ cert, op.cert = some cert ∧ certIsValid (some cert) = true ∧
      ((∃ written, op.hashError = some written ∧
          certDeviceSet sha256 s op = (.eio, { s with ref := written })) ∨
        (op.hashError = none ∧ certDeviceSet sha256 s op =
          (.ok, { s with ref := sha256 cert.data, certificate := cert }))) := by
  cases hcert : op.cert with
  | none => exact Or.inl ⟨by simp [certDeviceSet, hcert], fun c h => by cases h⟩
  | some cert =>
    cases hvalid : certIsValid (some cert) with
    | false =>
      refine Or.inl ⟨by simp [certDeviceSet, hcert, hvalid], fun c h => ?_⟩
      cases h
      exact hvalid
    | true =>
      refine Or.inr ⟨cert, rfl, hvalid, ?_⟩
      cases hhash : op.hashError with
      | some written =>
        exact Or.inl ⟨written, rfl, by simp [certDeviceSet, hcert, hvalid, generateRef, hhash]⟩
      | none => exact Or.inr ⟨rfl, by simp [certDeviceSet, hcert, hvalid, generateRef, hhash]⟩

theorem deviceAct_undisturbed :
    Undisturbed (deviceAct sha256) DeviceCert.cert fun _ => True where
  rest s op := by
    rcases certDeviceSet_cases sha256 s op with ⟨h, -⟩ | ⟨cert, -, -, ⟨written, -, h⟩ | ⟨-, h⟩⟩
    all_goals rw [deviceAct, h]
  running _ _ _ := trivial

end

def DeviceSet.sets (op : DeviceSet) : Bool := certIsValid op.cert && op.hashError.isNone

def lastSet : List (ReadOp DeviceSet) → Option PouchCert :=
  List.foldl (fun last op =>
    match op with
    | .read _ _ _ => last
    | .other op => if op.sets then op.cert else last) none

section
variable (sha256 : Buf → CertRef)

abbrev deviceFinal : List (ReadOp DeviceSet) → ReadRun Unit DeviceCert :=
  readFinal deviceCertRead (deviceAct sha256) (.boot .boot)

theorem deviceAct_current (s : DeviceCert) (op : DeviceSet) :
    (deviceAct sha256 s op).current =
      if op.sets then op.cert.map PouchCert.data else s.current := by
  rcases certDeviceSet_cases sha256 s op with
    ⟨h, hinvalid⟩ | ⟨cert, hcert, hvalid, ⟨written, hhash, h⟩ | ⟨hhash, h⟩⟩
  · have hno : op.sets = false := by
      cases hcert : op.cert with
      | none => simp [DeviceSet.sets, hcert, certIsValid]
      | some c => simp [DeviceSet.sets, hcert, hinvalid c hcert]
    rw [deviceAct, h, hno]
    rfl
  · rw [deviceAct, h]
    simp [DeviceSet.sets, hhash, DeviceCert.current, pouchDeviceCertificateGet]
  · rw [deviceAct, h]
    simp [DeviceSet.sets, hhash, hcert, hvalid, DeviceCert.current, pouchDeviceCertificateGet]

theorem deviceFinal_current (u : List (ReadOp DeviceSet)) (hall : ∀ op ∈ u, op.Allocates) :
    (deviceFinal sha256 u).ctx.state.current = (lastSet u).map PouchCert.data := by
  induction u using List.reverseRecOn with
  | nil => rfl
  | append_singleton u op ih =>
    have hu : ∀ o ∈ u, o.Allocates := fun o ho => hall o (List.mem_append_left _ ho)
    cases op with
    | read malloc len offset =>
      obtain rfl : malloc = true := hall (.read malloc len offset) (by simp)
      have hsame : lastSet (u++[.read true len offset]) = lastSet u := by
        simp [lastSet, List.foldl_append]
      rw [hsame, ← ih hu]
      exact readStep_current deviceCertRead_readable (deviceAct_undisturbed sha256) .boot u len
        offset hu
    | other op =>
      have hset : lastSet (u++[.other op]) = if op.sets then op.cert else lastSet u := by
        simp [lastSet, List.foldl_append]
      have hstep : (deviceFinal sha256 (u++[.other op])).ctx.state =
          deviceAct sha256 (deviceFinal sha256 u).ctx.state op := by
        rw [deviceFinal, readFinal, final_snoc, readStep]
      rw [hstep, deviceAct_current, ih hu, hset]
      cases op.sets <;> rfl

/-- In every run in which packetizers can be allocated, a message that the peer has put
together is the whole certificate that was the last to be set when its transfer began, even if
others have been set since. A certificate that is set arrives within one read more than it has
bytes, if the reads are from the start and have room and the first finds no transfer going on. -/
theorem device_cert_delivered (ops : List (ReadOp DeviceSet)) (hall : ∀ op ∈ ops, op.Allocates) :
    (∀ u op v, ops = u++op :: v → ∀ message,
      (readStep deviceCertRead (deviceAct sha256) (deviceFinal sha256 u) op).2 = some message →
      ∃ w cert, BegunAt deviceCertRead (deviceAct sha256) .boot u w ∧ lastSet w = some cert ∧
        message = cert.data) ∧
    ∀ u len v, ops = u++.read true len 0 :: v → (deviceFinal sha256 u).ctx.packetizer = none →
      2 ≤ len.toNat → (∀ op ∈ v, op.Serves) → ∀ cert, lastSet u = some cert →
      cert.data.length ≤ v.countP ReadOp.isRead →
      some cert.data ∈ outputs (readStep deviceCertRead (deviceAct sha256))
        (deviceFinal sha256 u) (.read true len 0 :: v) := by
  constructor
  · rintro u op v hsplit message hout
    have hfront : ∀ o ∈ u++[op], o.Allocates := fun o ho => hall o (by
      rw [hsplit]
      simp only [List.mem_append, List.mem_cons] at ho ⊢
      tauto)
    obtain ⟨w, hbegun, hcurrent⟩ := readStep_message deviceCertRead_readable
      (deviceAct_undisturbed sha256) .boot u op hfront message hout
    have hw : ∀ o ∈ w, o.Allocates := fun o ho =>
      hfront o (List.mem_append_left _ (hbegun.front.subset ho))
    have hlast := deviceFinal_current sha256 w hw
    rw [deviceFinal, hcurrent] at hlast
    obtain ⟨cert, hcert, hdata⟩ := Option.map_eq_some_iff.mp hlast.symm
    exact ⟨w, cert, hbegun, hcert, hdata.symm⟩
  · intro u len v hsplit hidle hlen hserves cert hcert hcount
    have hu : ∀ o ∈ u, o.Allocates := fun o ho => hall o (by rw [hsplit]; simp [ho])
    have hcurrent : (deviceFinal sha256 u).ctx.state.current = some cert.data := by
      rw [deviceFinal_current sha256 u hu, hcert]
      rfl
    exact outputs_current deviceCertRead_readable (deviceAct_undisturbed sha256) hidle hcurrent
      hlen v hserves hcount

end

def deviceSetOf (bytes : Buf) : DeviceSet where
  cert := some ⟨some bytes, bytes.length⟩
  hashError := none
  sized c hc b hb := by
    cases hc
    cases hb
    rfl
def certRenewal : List (ReadOp DeviceSet) :=
  [.other (deviceSetOf [0x30, 1, 2]), .read true 3 0, .other (deviceSetOf [0x31]), .read true 3 0]

theorem device_cert_delivered_renewal :
    ∃ w cert, BegunAt deviceCertRead (deviceAct fun _ => Vector.replicate 32 0) .boot
        (certRenewal.take 3) w ∧ lastSet w = some cert ∧ [0x30, 1, 2] = cert.data :=
  (device_cert_delivered (fun _ => Vector.replicate 32 0) certRenewal
    (by simp [certRenewal, ReadOp.Allocates])).1 _ (.read true 3 0) [] rfl [0x30, 1, 2] (by decide)

section
variable (sha256 : Buf → CertRef)

def deviceStep (s : DeviceCert) (op : DeviceSet) : DeviceCert × CertRet :=
  ((certDeviceSet sha256 s op).2, (certDeviceSet sha256 s op).1)

def RefFits (s : DeviceCert) : Prop :=
  certRefGet s = (pouchDeviceCertificateGet s).map fun cert => sha256 cert.data

def HashKeeps (s : DeviceCert) (op : DeviceSet) : Prop :=
  ∀ written, certIsValid op.cert = true → op.hashError = some written →
    certIsValid (some s.certificate) = true → written = s.ref

theorem refFits_iff (s : DeviceCert) : RefFits sha256 s ↔
    (certIsValid (some s.certificate) = true → s.ref = sha256 s.certificate.data) := by
  cases hvalid : certIsValid (some s.certificate) with
  | false => simp [RefFits, certRefGet, pouchDeviceCertificateGet, hvalid]
  | true => simp [RefFits, certRefGet, pouchDeviceCertificateGet, hvalid]

theorem deviceStep_refFits (s : DeviceCert) (op : DeviceSet) (h : RefFits sha256 s) :
    RefFits sha256 (deviceStep sha256 s op).1 ↔ HashKeeps s op := by
  rw [refFits_iff] at h ⊢
  rcases certDeviceSet_cases sha256 s op with
    ⟨hstep, hinvalid⟩ | ⟨cert, hcert, hvalid, ⟨written, hhash, hstep⟩ | ⟨hhash, hstep⟩⟩
  · simp only [deviceStep, hstep]
    refine iff_of_true h fun written hv => ?_
    cases hcert : op.cert with
    | none =>
      rw [hcert] at hv
      cases hv
    | some c =>
      rw [hcert, hinvalid c hcert] at hv
      cases hv
  · simp only [deviceStep, hstep]
    constructor
    · intro hfits written' hv hw hset
      obtain rfl : written = written' := Option.some.inj (hhash.symm.trans hw)
      exact (hfits hset).trans (h hset).symm
    · intro hkeeps hset
      rw [hkeeps written (hcert ▸ hvalid) hhash hset]
      exact h hset
  · simp only [deviceStep, hstep]
    refine iff_of_true (fun _ => trivial) fun written hv hw => ?_
    rw [hhash] at hw
    cases hw

/-- In every run from boot, the reference belongs to the certificate in every state, exactly if
no hash that fails writes over the reference of a certificate that is in use. -/
theorem device_ref_fits_iff (ops : List DeviceSet) :
    (∀ u v, ops = u++v → RefFits sha256 (final (deviceStep sha256) .boot u)) ↔
      ∀ u op v, ops = u++op :: v → HashKeeps (final (deviceStep sha256) .boot u) op :=
  throughout_iff (deviceStep sha256) (I := fun _ => True) (P := RefFits sha256)
    (A := fun _ _ => True) (C := HashKeeps) (fun _ _ _ h => h)
    (fun s op _ _ h => deviceStep_refFits sha256 s op h) .boot trivial rfl ops
    (fun _ _ _ _ => trivial)

end
end Pouch
