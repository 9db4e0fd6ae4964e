import AgeCrypt.Crypto.Sha256

/-!
# Keyed hashes and key derivation

HMAC (RFC 2104), HKDF (RFC 5869) and PBKDF2 with one iteration, all over SHA-256.
-/

namespace AgeCrypt

/-- HMAC-SHA256 of a message under a key of any length. -/
def hmac (key message : Bytes) : Block 32 :=
  let short := if 64 < key.length then (Sha256.hash key).bytes else key
  let full := short ++ List.replicate (64 - short.length) 0
  let inner := Sha256.hash (full.map (· ^^^ 0x36) ++ message)
  Sha256.hash (full.map (· ^^^ 0x5c) ++ inner.bytes)

/-- HKDF-SHA256 with 32 bytes of output. -/
def hkdf (salt label secret : Bytes) : Block 32 :=
  hmac (hmac salt secret).bytes (label ++ [1])

/-- PBKDF2-HMAC-SHA256 with one iteration and `32 * blocks` bytes of output. -/
def pbkdf2 (password salt : Bytes) (blocks : Nat) : Bytes :=
  (List.range blocks).flatMap fun i => (hmac password (salt ++ bigEndian 4 (i + 1))).bytes

end AgeCrypt
