import AgeCrypt.Bytes

/-!
# Poly1305

The one-time authenticator of RFC 7539: the message is a polynomial whose value modulo `2 ^ 130 - 5` at a
secret point, plus a secret number, is the tag.
-/

namespace AgeCrypt.Poly1305

def modulus : Nat := (1 <<< 130) - 5

/-- Clears the bits that the point must not have. -/
def clamp (r : Nat) : Nat := r &&& 0x0ffffffc0ffffffc0ffffffc0fffffff

/-- One step of the evaluation: a piece of at most 16 bytes with a one bit behind it. -/
def absorb (r acc : Nat) (piece : Bytes) : Nat :=
  (acc + (ofLittleEndian piece + (1 <<< (8 * piece.length)))) * r % modulus

def tag (key message : Bytes) : Block 16 :=
  let r := clamp (ofLittleEndian (key.take 16))
  let s := ofLittleEndian (key.drop 16)
  ⟨littleEndian 16 ((pieces 16 message).foldl (absorb r) 0 + s), by simp⟩

end AgeCrypt.Poly1305
