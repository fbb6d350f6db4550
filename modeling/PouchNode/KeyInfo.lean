import PouchNode.Lib.Base64
import PouchNode.Header
import PouchNode.DownlinkEntry

/-! The info string of the key derivation (saead/session.c). It is all that tells the keys
of two sessions apart when the same pair of parties agrees on the same secret, so it has to
determine the session; and it is printed into an array of INFO_MAX_LEN bytes without a
bound. -/
namespace Pouch

def base64Strlen (buflen : Nat) : Nat := 4*((buflen + 2)/3)
def infoMaxLen : Nat := 12 + base64Strlen sessionIdLen + 1

def base64Encode (dlen : Nat) (src : Buf) : Option Buf :=
  if dlen < (Base64.encode src).length + 1 then none else some (Base64.encode src)

def hexDigit (n : Nat) : UInt8 := if n < 10 then UInt8.ofNat (48 + n) else UInt8.ofNat (87 + n)

def hex02 (b : UInt8) : Buf := [hexDigit (b.toNat/16), hexDigit (b.toNat%16)]

def initiatorChar (id : SessionId) : UInt8 := if id.initiator = .device then 0x44 else 0x53
def algorithmChar (algorithm : PsaAlgorithm) : UInt8 :=
  if algorithm = .chacha20Poly1305 then 0x43 else 0x41
def typeChar (id : SessionId) : UInt8 := if id.type = .sequential then 0x53 else 0x52

/- What sprintf writes for "E0:%c:%s:C%c%c:%02x", up to its terminator; none is -EIO. -/
def sessionKeyInfoBuild (id : SessionId) (algorithm : PsaAlgorithm) (maxBlockSizeLog : UInt8) :
    Option Buf :=
  match base64Encode (base64Strlen sessionIdLen + 1) id.value.bytes.toList with
  | none => none
  | some text =>
    let sessionId := cString (text++[0])
    some ([0x45, 0x30, 0x3A]++[initiatorChar id]++[0x3A]++sessionId.chars++[0x3A, 0x43]++
      [algorithmChar algorithm]++[typeChar id]++[0x3A]++hex02 maxBlockSizeLog)

theorem hexDigit_injective {m n : Nat} (hm : m < 16) (hn : n < 16) (h : hexDigit m = hexDigit n) :
    m = n := by
  have hall : ∀ m n : Fin 16, hexDigit m = hexDigit n → m = n := by decide
  exact congrArg Fin.val (hall ⟨m, hm⟩ ⟨n, hn⟩ h)

theorem hex02_injective {b c : UInt8} (h : hex02 b = hex02 c) : b = c := by
  have hb := b.toNat_lt
  have hc := c.toNat_lt
  simp only [hex02, List.cons.injEq, and_true] at h
  have hhigh := hexDigit_injective (by omega) (by omega) h.1
  have hlow := hexDigit_injective (by omega) (by omega) h.2
  exact UInt8.toNat.inj (by omega)

theorem initiatorChar_injective {a b : SessionId} (h : initiatorChar a = initiatorChar b) :
    a.initiator = b.initiator := by
  unfold initiatorChar at h
  cases ha : a.initiator <;> cases hb : b.initiator <;> simp [ha, hb] at h ⊢

theorem typeChar_injective {a b : SessionId} (h : typeChar a = typeChar b) : a.type = b.type := by
  unfold typeChar at h
  cases ha : a.type <;> cases hb : b.type <;> simp [ha, hb] at h ⊢

def PsaAlgorithm.Aead (algorithm : PsaAlgorithm) : Prop :=
  algorithm = .chacha20Poly1305 ∨ algorithm = .gcm

theorem algorithmChar_injective {a b : PsaAlgorithm} (ha : a.Aead) (hb : b.Aead)
    (h : algorithmChar a = algorithmChar b) : a = b := by
  obtain rfl | rfl := ha <;> obtain rfl | rfl := hb <;> simp [algorithmChar] at h ⊢

theorem cString_terminated {text : Buf} (h : 0 ∉ text) : (cString (text++[0])).chars = text := by
  rw [cString_append h, show (cString [0]).chars = [] from rfl, List.append_nil]

theorem sessionKeyInfoBuild_eq (id : SessionId) (algorithm : PsaAlgorithm) (maxBlockSizeLog : UInt8) :
    sessionKeyInfoBuild id algorithm maxBlockSizeLog =
      some ([0x45, 0x30, 0x3A, initiatorChar id, 0x3A]++
        (Base64.encode id.value.bytes.toList++
          ([0x3A, 0x43, algorithmChar algorithm, typeChar id, 0x3A]++hex02 maxBlockSizeLog))) := by
  have hroom : ¬ base64Strlen sessionIdLen + 1 < (Base64.encode id.value.bytes.toList).length + 1 := by
    simp [base64Strlen, sessionIdLen]
  have htext := cString_terminated (Base64.zero_not_mem_encode id.value.bytes.toList)
  simp only [sessionKeyInfoBuild, base64Encode, if_neg hroom, htext]
  simp

theorem sessionKeyInfoBuild_injective {a b : SessionId} {algA algB : PsaAlgorithm} {m n : UInt8}
    (ha : algA.Aead) (hb : algB.Aead)
    (h : sessionKeyInfoBuild a algA m = sessionKeyInfoBuild b algB n) :
    a.initiator = b.initiator ∧ a.value.bytes = b.value.bytes ∧ algA = algB ∧ a.type = b.type ∧
      m = n := by
  rw [sessionKeyInfoBuild_eq, sessionKeyInfoBuild_eq, Option.some_inj] at h
  obtain ⟨hhead, htail⟩ := List.append_inj h rfl
  obtain ⟨htext, hrest⟩ := List.append_inj htail (by simp)
  obtain ⟨hmid, hhex⟩ := List.append_inj hrest rfl
  simp only [List.cons.injEq, true_and, and_true] at hhead hmid
  exact ⟨initiatorChar_injective hhead, Vector.toList_inj.mp (Base64.encode_injective htext),
    algorithmChar_injective ha hb hmid.1, typeChar_injective hmid.2, hex02_injective hhex⟩

/-- The info string and its terminator fit into the array, and two sessions have the same
string exactly if they agree in everything that is printed. -/
theorem keyInfo_separates (a b : SessionId) (algA algB : PsaAlgorithm) (m n : UInt8)
    (ha : algA.Aead) (hb : algB.Aead) :
    (∃ info, sessionKeyInfoBuild a algA m = some info ∧ info.length + 1 ≤ infoMaxLen) ∧
    (sessionKeyInfoBuild a algA m = sessionKeyInfoBuild b algB n ↔
      a.initiator = b.initiator ∧ a.value.bytes = b.value.bytes ∧ algA = algB ∧
        a.type = b.type ∧ m = n) := by
  constructor
  · refine ⟨_, sessionKeyInfoBuild_eq a algA m, ?_⟩
    simp [hex02, infoMaxLen, base64Strlen, sessionIdLen]
  · constructor
    · exact sessionKeyInfoBuild_injective ha hb
    · rintro ⟨hinit, hbytes, halg, htype, hlog⟩
      rw [sessionKeyInfoBuild_eq, sessionKeyInfoBuild_eq, hbytes, halg, hlog]
      simp only [initiatorChar, typeChar, hinit, htype]

def zeroSequential : SessionId := ⟨.device, .sequential (Vector.replicate 8 0) 0⟩
def zeroRandom : SessionId := ⟨.device, .random (Vector.replicate 16 0)⟩

/-- Two sessions whose identifiers are the same bytes of different types. -/
theorem keyInfo_separates_types :
    zeroSequential.value.bytes = zeroRandom.value.bytes ∧
    sessionKeyInfoBuild zeroSequential .gcm 9 ≠ sessionKeyInfoBuild zeroRandom .gcm 9 := by
  refine ⟨by decide, fun h => ?_⟩
  have hsep := keyInfo_separates zeroSequential zeroRandom .gcm .gcm 9 9 (.inr rfl) (.inr rfl)
  have htype := (hsep.2.mp h).2.2.2.1
  exact absurd htype (by decide)

end Pouch
