import PouchNode.Lib.Octets

/-! Build-time configuration: the Kconfig symbols the core reads and the block sizes
that block.h derives from them. The bounds on the block size are those under which the
C constants are defined at all (LOG2 of a positive number, a shift of an int). -/
namespace Pouch

inductive Encryption where
  | none | saead
  deriving DecidableEq, Repr

structure Config where
  blockSize : Nat
  blockSize_pos : 0 < blockSize
  blockSize_lt : blockSize < 2^31
  encryption : Encryption
  /- Width of size_t, which is at least that of int. -/
  sizeBits : Nat
  sizeBits_ge : 32 ≤ sizeBits

namespace Config

/- A build with blocks of 2^k bytes, k at most 30, where size_t has 32 bits. -/
def ofLog (k : Nat) (encryption : Encryption) : Config where
  blockSize := 2^min k 30
  blockSize_pos := Nat.two_pow_pos _
  blockSize_lt := Nat.pow_lt_pow_right (by decide) (by omega)
  encryption := encryption
  sizeBits := 32
  sizeBits_ge := le_rfl

variable (cfg : Config)

def authTagLen : Nat := if cfg.encryption = .saead then 16 else 0
def maxBlockPayloadSizeLog : Nat := Nat.log2 cfg.blockSize
def maxBlockPayloadSize : Nat := 1 <<< cfg.maxBlockPayloadSizeLog
def maxPlaintextBlockSize : Nat := 3 + cfg.maxBlockPayloadSize
def maxCiphertextBlockSize : Nat := cfg.maxPlaintextBlockSize + cfg.authTagLen
def maxBlockSizeFieldValue : Nat := cfg.maxCiphertextBlockSize - 2

def sizeSub (a b : Nat) : Nat := (a + 2^cfg.sizeBits - b) % 2^cfg.sizeBits

theorem maxBlockPayloadSize_eq : cfg.maxBlockPayloadSize = 2^cfg.maxBlockPayloadSizeLog := by
  simp [maxBlockPayloadSize, Nat.shiftLeft_eq]

theorem maxBlockPayloadSize_pos : 0 < cfg.maxBlockPayloadSize := by
  rw [maxBlockPayloadSize_eq]
  exact Nat.two_pow_pos _

theorem maxBlockPayloadSize_lt : cfg.maxBlockPayloadSize < 2^31 := by
  rw [maxBlockPayloadSize_eq]
  exact lt_of_le_of_lt (Nat.log2_self_le cfg.blockSize_pos.ne') cfg.blockSize_lt

theorem maxBlockPayloadSize_large :
    cfg.maxBlockPayloadSize ≤ 32768 ∨ cfg.maxBlockPayloadSize = 65536 ∨
      131072 ≤ cfg.maxBlockPayloadSize := by
  rw [maxBlockPayloadSize_eq]
  by_cases hsmall : cfg.maxBlockPayloadSizeLog ≤ 15
  · exact Or.inl (Nat.pow_le_pow_right (by decide) hsmall)
  · by_cases hnext : cfg.maxBlockPayloadSizeLog = 16
    · exact Or.inr (Or.inl (by rw [hnext]; rfl))
    · exact Or.inr (Or.inr (Nat.pow_le_pow_right (n := 2) (by decide) (by omega : 17 ≤ _)))

/-- The payload size is a power of two, so it is far from the limit of the size field. -/
theorem maxBlockPayloadSize_cases :
    cfg.maxBlockPayloadSize ≤ 32768 ∨ 65536 ≤ cfg.maxBlockPayloadSize := by
  cases cfg.maxBlockPayloadSize_large with
  | inl hsmall => exact Or.inl hsmall
  | inr hlarge => exact Or.inr (by omega)

theorem two_pow_le_sizeBits : 2^32 ≤ 2^cfg.sizeBits :=
  Nat.pow_le_pow_right (by decide) cfg.sizeBits_ge

theorem authTagLen_le : cfg.authTagLen ≤ 16 := by
  unfold authTagLen
  split <;> omega

theorem maxCiphertextBlockSize_lt : cfg.maxCiphertextBlockSize < 2^cfg.sizeBits := by
  have hp := cfg.maxBlockPayloadSize_lt
  have ht := cfg.authTagLen_le
  have hs := cfg.two_pow_le_sizeBits
  simp only [maxCiphertextBlockSize, maxPlaintextBlockSize]
  omega

theorem four_le_maxCiphertextBlockSize : 4 ≤ cfg.maxCiphertextBlockSize := by
  have hp := cfg.maxBlockPayloadSize_pos
  simp only [maxCiphertextBlockSize, maxPlaintextBlockSize]
  omega

theorem sizeSub_eq {a b : Nat} (hb : b ≤ a) (ha : a < 2^cfg.sizeBits) :
    cfg.sizeSub a b = a - b := by
  unfold sizeSub
  have he : a + 2^cfg.sizeBits - b = (a - b) + 2^cfg.sizeBits := by omega
  rw [he, Nat.add_mod_right]
  exact Nat.mod_eq_of_lt (by omega)

end Config

inductive Errno where
  | eagain | ealready | ebadmsg | ebusy | einval | eio | enomem | enotconn | enotsup
  deriving DecidableEq, Repr

inductive Ret where
  | ok
  | err (e : Errno)
  deriving DecidableEq, Repr

end Pouch
