import AgeCrypt.Crypto.ChaCha20
import AgeCrypt.Crypto.Poly1305

/-!
# Authenticated encryption

ChaCha20-Poly1305 of RFC 7539 without associated data. Main statements: an encrypted message is 16
bytes longer (`length_encrypt`), and decrypting gives a message exactly when the ciphertext is what encrypting
that message gives (`decrypt_eq_some_iff`), also where the size of the message is fixed (`decryptOnce_eq_ok_iff`).
-/

namespace AgeCrypt

namespace Aead

def tagLength : Nat := 16

def fill (n : Nat) : Bytes := List.replicate ((16 - n % 16) % 16) 0

/-- The tag of a ciphertext, which also covers its length. -/
def tag (key : Block 32) (nonce : Block 12) (ciphertext : Bytes) : Block 16 :=
  Poly1305.tag ((ChaCha20.block key nonce 0).take 32)
    (ciphertext ++ fill ciphertext.length ++ littleEndian 8 0 ++ littleEndian 8 ciphertext.length)

/-- Encrypts a message and puts its tag behind it. -/
def encrypt (key : Block 32) (nonce : Block 12) (message : Bytes) : Bytes :=
  let ciphertext := ChaCha20.apply key nonce 1 message
  ciphertext ++ (tag key nonce ciphertext).bytes

/-- Decrypts a ciphertext with its tag, if the tag is right. -/
def decrypt (key : Block 32) (nonce : Block 12) (sealed : Bytes) : Option Bytes :=
  if sealed.length < tagLength then none
  else
    let ciphertext := sealed.take (sealed.length - tagLength)
    if sealed.drop (sealed.length - tagLength) = (tag key nonce ciphertext).bytes then
      some (ChaCha20.apply key nonce 1 ciphertext)
    else none

theorem length_encrypt (key : Block 32) (nonce : Block 12) (message : Bytes) :
    (encrypt key nonce message).length = message.length + 16 := by
  simp [encrypt]

theorem decrypt_eq_some_iff {key : Block 32} {nonce : Block 12} {sealed message : Bytes} :
    decrypt key nonce sealed = some message ↔ sealed = encrypt key nonce message := by
  constructor
  · intro opens
    simp only [decrypt] at opens
    split at opens
    · simp at opens
    · split at opens
      · rename_i long right
        injection opens with opens
        subst opens
        simp only [encrypt, ChaCha20.apply_apply]
        rw [← right, List.take_append_drop]
      · simp at opens
  · rintro rfl
    have size := length_encrypt key nonce message
    have cut : (encrypt key nonce message).length - tagLength = (ChaCha20.apply key nonce 1 message).length := by
      rw [size, tagLength, ChaCha20.length_apply]
      omega
    have long : ¬ (encrypt key nonce message).length < tagLength := by
      rw [size, tagLength]
      omega
    simp only [decrypt, if_neg long, cut]
    simp [encrypt, ChaCha20.apply_apply]

/-- What opens is 16 bytes shorter. -/
theorem length_of_decrypt {key : Block 32} {nonce : Block 12} {sealed message : Bytes}
    (opens : decrypt key nonce sealed = some message) : sealed.length = message.length + 16 := by
  rw [decrypt_eq_some_iff.1 opens, length_encrypt]

end Aead

/-- How a key encrypts a message under a nonce, with a tag behind it, and how it decrypts. -/
structure Cipher where
  encrypt : Block 12 → Bytes → Bytes
  decrypt : Block 12 → Bytes → Option Bytes
  length_encrypt : ∀ nonce message, (encrypt nonce message).length = message.length + Aead.tagLength
  length_of_decrypt : ∀ {nonce sealed message}, decrypt nonce sealed = some message →
    sealed.length = message.length + Aead.tagLength

def Cipher.chaCha20Poly1305 (key : Block 32) : Cipher :=
  ⟨Aead.encrypt key, Aead.decrypt key, Aead.length_encrypt key, Aead.length_of_decrypt⟩

/-- Why a message of a fixed size could not be decrypted. -/
inductive AeadError
  | wrongLength
  | unauthenticated
deriving DecidableEq

/-- Encrypts under a key that serves for one message only. -/
def encryptOnce (key : Block 32) (message : Bytes) : Bytes := Aead.encrypt key (.zeros 12) message

/-- Decrypts what such a key encrypted, if it is to hold exactly `size` bytes. -/
def decryptOnce (key : Block 32) (size : Nat) (sealed : Bytes) : Except AeadError Bytes :=
  if sealed.length ≠ size + Aead.tagLength then .error .wrongLength
  else
    match Aead.decrypt key (.zeros 12) sealed with
    | some message => .ok message
    | none => .error .unauthenticated

theorem length_encryptOnce (key : Block 32) (message : Bytes) : (encryptOnce key message).length = message.length + 16 :=
  Aead.length_encrypt key (.zeros 12) message

theorem decryptOnce_eq_wrongLength_iff {key : Block 32} {size : Nat} {sealed : Bytes} :
    decryptOnce key size sealed = .error .wrongLength ↔ sealed.length ≠ size + 16 := by
  rw [decryptOnce, Aead.tagLength]
  by_cases other : sealed.length ≠ size + 16
  · rw [if_pos other]
    exact iff_of_true rfl other
  · rw [if_neg other]
    cases Aead.decrypt key (.zeros 12) sealed with
    | none => simp [other]
    | some message => simp [other]

/-- What decrypts is a message of the size as it is encrypted. -/
theorem decryptOnce_eq_ok_iff {key : Block 32} {size : Nat} {sealed message : Bytes} :
    decryptOnce key size sealed = .ok message ↔ message.length = size ∧ sealed = encryptOnce key message := by
  constructor
  · intro decrypts
    rw [decryptOnce] at decrypts
    split at decrypts
    · cases decrypts
    · rename_i length
      split at decrypts
      · rename_i opens
        cases decrypts
        rw [Decidable.not_not, Aead.length_of_decrypt opens] at length
        exact ⟨Nat.add_right_cancel length, Aead.decrypt_eq_some_iff.1 opens⟩
      · cases decrypts
  · rintro ⟨rfl, rfl⟩
    rw [decryptOnce, length_encryptOnce, if_neg (fun differ => differ rfl), encryptOnce, Aead.decrypt_eq_some_iff.2 rfl]

end AgeCrypt
