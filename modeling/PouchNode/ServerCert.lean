import PouchNode.Lib.Machine
import PouchNode.Packetizer

/-! The server certificate characteristic (server_cert_characteristic.c). The certificate
arrives in packets and is put together in a buffer of fixed size; how much of it is full
is not compared with that size. -/
namespace Pouch
open Machine

structure CertBuffer where
  capacity : Nat
  bytes : Buf
  deriving DecidableEq, Repr

structure ServerCertCtx where
  buffer : Option CertBuffer
  size : Nat
  deriving DecidableEq, Repr

def ServerCertCtx.boot : ServerCertCtx := ⟨none, 0⟩

structure CertWrite where
  packet : Buf
  malloc : Bool
  set : Ret
  deriving DecidableEq, Repr

inductive CertWriteRet where
  | len (n : Nat)
  | unlikely
  | insufficientResources
  deriving DecidableEq, Repr

structure CertWriteOut where
  ret : CertWriteRet
  copied : Option Nat
  certificate : Option Buf
  disconnect : Bool
  deriving DecidableEq, Repr

def certCopy (ctx : ServerCertCtx) (len : Nat) (payload : Buf) (isLast : Bool) (set : Ret) :
    ServerCertCtx × CertWriteOut :=
  match ctx.buffer with
  | none => (ctx, ⟨.insufficientResources, none, none, false⟩)
  | some buffer =>
    let bytes := buffer.bytes.take ctx.size++payload
    let size := ctx.size + payload.length
    if isLast then
      (⟨none, size⟩, ⟨.len len, some size, some (bytes.take size), decide (set ≠ .ok)⟩)
    else (⟨some ⟨buffer.capacity, bytes⟩, size⟩, ⟨.len len, some size, none, false⟩)

def serverCertWrite (maxLen : Nat) (ctx : ServerCertCtx) (w : CertWrite) :
    ServerCertCtx × CertWriteOut :=
  match packetizerDecode w.packet with
  | none => (ctx, ⟨.unlikely, none, none, false⟩)
  | some (payload, isFirst, isLast) =>
    if payload.length = 0 then (ctx, ⟨.unlikely, none, none, false⟩)
    else
      let ctx := if isFirst then ⟨if w.malloc then some ⟨maxLen, []⟩ else none, 0⟩ else ctx
      certCopy ctx w.packet.length payload isLast w.set

abbrev certFinal (maxLen : Nat) : ServerCertCtx → List CertWrite → ServerCertCtx :=
  final (serverCertWrite maxLen)

/- The transfer as the peer sees it: whether a FIRST packet has been taken without a LAST
   one since, and the payloads taken since the most recent FIRST. -/
structure Transfer where
  inProgress : Bool
  received : Buf
  deriving DecidableEq, Repr

def CertWrite.payload (w : CertWrite) : Buf := w.packet.tail
def CertWrite.isFirst (w : CertWrite) : Bool :=
  ((packetizerDecode w.packet).map fun d => d.2.1).getD false
def CertWrite.isLast (w : CertWrite) : Bool :=
  ((packetizerDecode w.packet).map fun d => d.2.2).getD false

def Transfer.takes (t : Transfer) (w : CertWrite) : Bool :=
  !w.payload.isEmpty && if w.isFirst then w.malloc else t.inProgress

def Transfer.next (t : Transfer) (w : CertWrite) : Transfer :=
  if t.takes w then
    ⟨!w.isLast, if w.isFirst then w.payload else t.received++w.payload⟩
  else if !w.payload.isEmpty && w.isFirst then { t with inProgress := false }
  else t

def transferAfter (ws : List CertWrite) : Transfer := ws.foldl Transfer.next ⟨false, []⟩

/- A write stays within the buffer, and passes a certificate on exactly if it takes a LAST
   packet: the payloads since the most recent FIRST. -/
structure WritesWithin (maxLen : Nat) (ctx : ServerCertCtx) (t : Transfer) (w : CertWrite) :
    Prop where
  copied : ∀ n, (serverCertWrite maxLen ctx w).2.copied = some n → n ≤ maxLen
  certificate : (serverCertWrite maxLen ctx w).2.certificate =
    if t.takes w && w.isLast then some (t.next w).received else none

structure Assembles (maxLen : Nat) (ctx : ServerCertCtx) (t : Transfer) : Prop where
  buffer : ctx.buffer = if t.inProgress then some ⟨maxLen, t.received⟩ else none
  size : t.inProgress = true → ctx.size = t.received.length

section
variable {maxLen : Nat} {ctx : ServerCertCtx} {t : Transfer} {w : CertWrite}

theorem serverCertWrite_empty (hp : w.payload = []) :
    serverCertWrite maxLen ctx w = (ctx, ⟨.unlikely, none, none, false⟩) := by
  cases hw : w.packet with
  | nil => simp [serverCertWrite, hw, packetizerDecode]
  | cons flags data =>
    have hdata : data = [] := by simpa [CertWrite.payload, hw] using hp
    simp [serverCertWrite, hw, packetizerDecode, hdata]

theorem serverCertWrite_payload (hp : w.payload ≠ []) :
    serverCertWrite maxLen ctx w =
      certCopy (if w.isFirst then ⟨if w.malloc then some ⟨maxLen, []⟩ else none, 0⟩ else ctx)
        w.packet.length w.payload w.isLast w.set := by
  cases hw : w.packet with
  | nil => simp [CertWrite.payload, hw] at hp
  | cons flags data =>
    have hdata : data ≠ [] := by simpa [CertWrite.payload, hw] using hp
    simp [serverCertWrite, hw, packetizerDecode, hdata, CertWrite.payload, CertWrite.isFirst,
      CertWrite.isLast]

theorem certCopy_spec (h : Assembles maxLen ctx t) (hopen : t.inProgress = true) (len : Nat)
    (payload : Buf) (isLast : Bool) (set : Ret) :
    (certCopy ctx len payload isLast set).2.copied = some (t.received++payload).length ∧
    (certCopy ctx len payload isLast set).2.certificate =
      (if isLast then some (t.received++payload) else none) ∧
    Assembles maxLen (certCopy ctx len payload isLast set).1 ⟨!isLast, t.received++payload⟩ := by
  have hbuffer := h.buffer
  rw [hopen] at hbuffer
  have hsize := h.size hopen
  cases isLast with
  | false =>
    simp only [certCopy, hbuffer, if_true, hsize, List.take_length]
    refine ⟨by simp, rfl, ⟨rfl, ?_⟩⟩
    intro _
    simp
  | true =>
    simp only [certCopy, hbuffer, if_true, hsize, List.take_length]
    refine ⟨by simp, by simp, ⟨rfl, ?_⟩⟩
    intro hno
    cases hno

/-- Everything a write can do, in terms of the transfer. -/
theorem serverCertWrite_spec (h : Assembles maxLen ctx t) (w : CertWrite) :
    (serverCertWrite maxLen ctx w).2.copied =
      (if t.takes w then some (t.next w).received.length else none) ∧
    (serverCertWrite maxLen ctx w).2.certificate =
      (if t.takes w && w.isLast then some (t.next w).received else none) ∧
    Assembles maxLen (serverCertWrite maxLen ctx w).1 (t.next w) := by
  by_cases hp : w.payload = []
  · have hno : t.takes w = false := by simp [Transfer.takes, hp]
    have hsame : t.next w = t := by simp [Transfer.next, hno, hp]
    rw [serverCertWrite_empty hp, hno, hsame]
    exact ⟨rfl, rfl, h⟩
  · rw [serverCertWrite_payload hp]
    have htakes : t.takes w = if w.isFirst then w.malloc else t.inProgress := by
      simp [Transfer.takes, hp]
    cases hf : w.isFirst with
    | true =>
      cases hm : w.malloc with
      | false =>
        have hno : t.takes w = false := by simp [htakes, hf, hm]
        have hnext : t.next w = { t with inProgress := false } := by
          simp [Transfer.next, hno, hp, hf]
        rw [hno, hnext]
        refine ⟨rfl, rfl, ⟨rfl, ?_⟩⟩
        intro hopen
        cases hopen
      | true =>
        have hyes : t.takes w = true := by simp [htakes, hf, hm]
        have hnext : t.next w = ⟨!w.isLast, []++w.payload⟩ := by
          simp [Transfer.next, hyes, hf]
        have hnew : Assembles maxLen ⟨some ⟨maxLen, []⟩, 0⟩ ⟨true, []⟩ := ⟨rfl, fun _ => rfl⟩
        rw [hyes, hnext]
        simpa using certCopy_spec hnew rfl w.packet.length w.payload w.isLast w.set
    | false =>
      cases hopen : t.inProgress with
      | false =>
        have hno : t.takes w = false := by simp [htakes, hf, hopen]
        have hsame : t.next w = t := by simp [Transfer.next, hno, hf]
        have hnone : ctx.buffer = none := by simpa [hopen] using h.buffer
        rw [hno, hsame]
        simpa [certCopy, hnone] using h
      | true =>
        have hyes : t.takes w = true := by simp [htakes, hf, hopen]
        have hnext : t.next w = ⟨!w.isLast, t.received++w.payload⟩ := by
          simp [Transfer.next, hyes, hf]
        rw [hyes, hnext]
        simpa using certCopy_spec h hopen w.packet.length w.payload w.isLast w.set

end

/-- The context refines the transfer, over every sequence of writes. -/
theorem assembles_run (maxLen : Nat) (ws : List CertWrite) :
    Assembles maxLen (certFinal maxLen .boot ws) (transferAfter ws) := by
  induction ws using List.reverseRecOn with
  | nil =>
    refine ⟨rfl, ?_⟩
    intro hno
    cases hno
  | append_singleton ws w ih =>
    rw [certFinal, final_snoc, transferAfter, List.foldl_append]
    exact (serverCertWrite_spec ih w).2.2

/-- In every sequence of writes each one stays within the buffer and passes on what it
should, exactly if the payloads taken since a FIRST packet never exceed the size of the
buffer. -/
theorem cert_writes_within_iff (maxLen : Nat) (ws : List CertWrite) :
    (∀ u w v, ws = u++w :: v →
      WritesWithin maxLen (certFinal maxLen .boot u) (transferAfter u) w) ↔
    ∀ u w v, ws = u++w :: v → (transferAfter u).takes w = true →
      ((transferAfter u).next w).received.length ≤ maxLen := by
  have hspec := fun u w => serverCertWrite_spec (assembles_run maxLen u) w
  constructor
  · intro h u w v hsplit htakes
    apply (h u w v hsplit).copied
    rw [(hspec u w).1, if_pos htakes]
  · intro h u w v hsplit
    refine ⟨?_, (hspec u w).2.1⟩
    intro n hn
    rw [(hspec u w).1] at hn
    by_cases htakes : (transferAfter u).takes w = true
    · rw [if_pos htakes, Option.some.injEq] at hn
      exact hn ▸ h u w v hsplit htakes
    · rw [if_neg htakes] at hn
      cases hn

def longCertPacket (flags : UInt8) : CertWrite := ⟨flags :: List.replicate 511 0x30, true, .ok⟩
def longCert : List CertWrite :=
  longCertPacket packetFirst :: List.replicate 7 (longCertPacket 0)

theorem long_cert_overflows :
    ¬ WritesWithin 4096 (certFinal 4096 .boot longCert) (transferAfter longCert)
      (longCertPacket packetLast) := by
  intro h
  have hcopied : (serverCertWrite 4096 (certFinal 4096 .boot longCert)
      (longCertPacket packetLast)).2.copied = some 4599 := by decide +kernel
  exact absurd (h.copied 4599 hcopied) (by decide)

end Pouch
