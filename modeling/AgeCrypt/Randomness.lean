import AgeCrypt.Bytes
import AgeCrypt.Error

/-!
# Randomness

An endless sequence of random bytes, of which each byte is used once. Drawing is a state that survives an error,
so that no byte is ever used again.
-/

namespace AgeCrypt

/-- Random bytes and how many of them were used. -/
structure Randomness where
  byteAt : Nat → UInt8
  used : Nat

abbrev Drawing := StateM Randomness

abbrev Encrypting := ExceptT EncryptError Drawing

namespace Randomness

def peek (r : Randomness) (n : Nat) : Block n :=
  ⟨(List.range n).map fun i => r.byteAt (r.used + i), by simp⟩

def draw (n : Nat) : Drawing (Block n) := fun r => (r.peek n, { r with used := r.used + n })

end Randomness

end AgeCrypt
