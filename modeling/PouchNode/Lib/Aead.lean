import Mathlib.Tactic

/-! Authenticated encryption with associated data over octet strings: the ciphertext is as
long as the plaintext, with a tag of fixed length after it. -/
namespace Aead

abbrev Octets := List UInt8

structure Scheme (κ : Type*) (tagLen : ℕ) where
  encrypt : κ → Octets → Octets → Octets → Octets
  decrypt : κ → Octets → Octets → Octets → Option Octets
  length_encrypt : ∀ key nonce ad plain, (encrypt key nonce ad plain).length = plain.length + tagLen
  decrypt_encrypt : ∀ key nonce ad plain, decrypt key nonce ad (encrypt key nonce ad plain) = some plain

def tag (tagLen : ℕ) (cipher : Octets) : Octets := cipher.drop (cipher.length - tagLen)

theorem length_tag {tagLen : ℕ} {cipher : Octets} (h : tagLen ≤ cipher.length) :
    (tag tagLen cipher).length = tagLen := by
  rw [tag, List.length_drop]
  omega

end Aead
