import PouchNode.Header
import PouchNode.UplinkPackets
import PouchNode.DownlinkPackets

/-! A build without encryption (crypto_none.c), at both ends: the headers and blocks that the
uplink sends, and the receiver that takes them. -/
namespace Pouch
open Machine

structure PlainDevice where
  deviceId : CString
  encode : HeaderEncoder
  canonical : encode.Canonical
  headerAlloc : Nat → Bool

def PlainDevice.header (d : PlainDevice) : Buf :=
  PouchHeader.cbor ⟨pouchHeaderVersion, .plaintext d.deviceId.chars⟩

theorem pouchHeaderCreate_plain (d : PlainDevice) {alloc : Bool} {h : Buf}
    (hmade : pouchHeaderCreate d.encode .none alloc (CryptoNone.cryptoHeaderGet d.deviceId) =
      some h) : h = d.header ∧ h.length ≤ pouchHeaderMaxLen .none := by
  cases alloc with
  | false => cases hmade
  | true =>
    by_cases hfits : d.header.length ≤ pouchHeaderMaxLen .none
    · have hencode : d.encode ⟨pouchHeaderVersion, .plaintext d.deviceId.chars⟩
          (pouchHeaderMaxLen .none) = some d.header := d.canonical.room _ _ hfits
      simp only [pouchHeaderCreate, writeHeader, CryptoNone.cryptoHeaderGet, if_true, hencode,
        bufWrite, List.nil_append, Option.some.injEq] at hmade
      exact ⟨hmade.symm, hmade ▸ hfits⟩
    · have hencode : d.encode ⟨pouchHeaderVersion, .plaintext d.deviceId.chars⟩
          (pouchHeaderMaxLen .none) = none := d.canonical.noRoom _ _ (Nat.lt_of_not_le hfits)
      simp [pouchHeaderCreate, writeHeader, CryptoNone.cryptoHeaderGet, hencode] at hmade

theorem plain_block_lt (cfg : Config) (k : Nat) (b c : Buf)
    (h : ((if b.length < 2^cfg.sizeBits then some b else none, k) : Option Buf × Nat).1 = some c) :
    c.length < 2^cfg.sizeBits := by
  dsimp only at h
  split at h
  · cases h
    assumption
  · cases h

theorem plain_header_lt (cfg : Config) (d : PlainDevice) (k : Nat) (h : Buf)
    (hmade : ((pouchHeaderCreate d.encode .none (d.headerAlloc k)
      (CryptoNone.cryptoHeaderGet d.deviceId), k + 1) : Option Buf × Nat).1 = some h) :
    h.length < 2^cfg.sizeBits := by
  have hlen := (pouchHeaderCreate_plain d hmade).2
  have hbits := cfg.two_pow_le_sizeBits
  rw [pouchHeaderMaxLen, pouchHeaderOverhead, pouchHeaderOverheadEncryptionNone,
    pouchDeviceIdMaxLen] at hlen
  omega

def cryptoNoneUplink (cfg : Config) (d : PlainDevice) : CryptoOps cfg Nat where
  sessionStart k := (.ok, k)
  pouchStart k := (.ok, k)
  headerCreate k := (pouchHeaderCreate d.encode .none (d.headerAlloc k)
    (CryptoNone.cryptoHeaderGet d.deviceId), k + 1)
  -- there is no buffer that is longer
  encryptBlock k block := (if block.length < 2^cfg.sizeBits then some block else none, k)
  sessionEnd k := k
  header_lt := plain_header_lt cfg d
  encrypt_lt := plain_block_lt cfg

section
variable {cfg : Config} {d : PlainDevice}

theorem encryptBlocks_plain (k : Nat) {blocks : List Buf}
    (h : ∀ b ∈ blocks, b.length < 2^cfg.sizeBits) :
    (encryptBlocks (cryptoNoneUplink cfg d) k blocks).1 = blocks := by
  induction blocks with
  | nil => rfl
  | cons b blocks ih =>
    obtain ⟨hb, hrest⟩ := List.forall_mem_cons.mp h
    have hencrypt : (cryptoNoneUplink cfg d).encryptBlock k b = (some b, k) := by
      simp [cryptoNoneUplink, hb]
    simp [encryptBlocks, hencrypt, ih hrest]

theorem wellFormed_lt {b : Buf} (h : WellFormedBlock cfg b) : b.length < 2^cfg.sizeBits := by
  have hblock : b.length = 2 + Octets.getBe16 b := h.isBlock
  have hle := h.le
  have hmax := cfg.maxCiphertextBlockSize_lt
  have hfour := cfg.four_le_maxCiphertextBlockSize
  rw [Config.maxBlockSizeFieldValue] at hle
  omega

/-- A pouch is its header and its blocks, or nothing at all. -/
theorem UplinkPouch.plain_bytes (pouch : UplinkPouch (cryptoNoneUplink cfg d))
    (hblocks : ∀ b ∈ pouch.blocks, WellFormedBlock cfg b) :
    pouch.bytes = [] ∧ pouch.blocks = [] ∨ pouch.bytes = d.header++pouch.blocks.flatten := by
  obtain ⟨k0, k1, k2, -, -, hmade⟩ := pouch.made
  have hh : pouch.header = d.header := (pouchHeaderCreate_plain d (congrArg Prod.fst hmade)).1
  have hplain : (encryptBlocks (cryptoNoneUplink cfg d) pouch.state pouch.blocks).1 = pouch.blocks :=
    encryptBlocks_plain pouch.state fun b hb => wellFormed_lt (hblocks b hb)
  rw [UplinkPouch.bytes, sessionString, hplain, hh]
  by_cases hnone : pouch.blocks = []
  · exact Or.inl ⟨by simp [withHeader, hnone], hnone⟩
  · exact Or.inr (by simp [withHeader, hnone])

theorem UplinkPouch.plain_for (pouch : UplinkPouch (cryptoNoneUplink cfg d))
    (hblocks : ∀ b ∈ pouch.blocks, WellFormedBlock cfg b)
    (hheader : d.header.length ≤ cfg.maxCiphertextBlockSize)
    {ι : Type*} {env : DownlinkEnv Unit ι} (hvalid : ValidHeader env () d.header) :
    PouchFor cfg env pouch.bytes pouch.blocks :=
  ⟨hblocks, (pouch.plain_bytes hblocks).imp_right fun hbytes => ⟨d.header, hvalid, hheader, hbytes⟩⟩

end
end Pouch
