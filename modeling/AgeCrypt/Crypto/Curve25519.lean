import AgeCrypt.Bytes

/-!
# Curve25519

The Diffie-Hellman function X25519 of RFC 7748: a scalar of 32 bytes, clamped when it is used, multiplies the
first coordinate of a point.
-/

namespace AgeCrypt.Curve25519

def fieldOrder : Nat := (1 <<< 255) - 19

/-- A power in the field: squares once for each bit of the exponent, highest first. -/
def power (base : Nat) (bits : List Bool) : Nat :=
  bits.foldl (fun acc bit => if bit then acc * acc % fieldOrder * base % fieldOrder else acc * acc % fieldOrder) 1

/-- The bits of a number from bit `n - 1` down. -/
def bitsBelow : (n : Nat) → Nat → List Bool
  | 0, _ => []
  | n + 1, x => x.testBit n :: bitsBelow n x

/-- The inverse in the field, zero for zero. -/
def inverse (x : Nat) : Nat := power x (bitsBelow 255 (fieldOrder - 2))

/-- Two neighbouring multiples of a point, as fractions of first coordinates. -/
structure Ladder where
  x2 : Nat
  z2 : Nat
  x3 : Nat
  z3 : Nat

/-- Doubles the first multiple and adds the two. -/
def Ladder.step (u : Nat) (l : Ladder) : Ladder :=
  let a := l.x2 + l.z2
  let aa := a * a % fieldOrder
  let b := l.x2 + fieldOrder - l.z2
  let bb := b * b % fieldOrder
  let e := aa + fieldOrder - bb
  let c := l.x3 + l.z3
  let d := l.x3 + fieldOrder - l.z3
  let da := d * a % fieldOrder
  let cb := c * b % fieldOrder
  let sum := da + cb
  let difference := da + fieldOrder - cb
  { x3 := sum * sum % fieldOrder
    z3 := u * (difference * difference % fieldOrder) % fieldOrder
    x2 := aa * bb % fieldOrder
    z2 := e * (aa + 121665 * e) % fieldOrder }

def Ladder.swap (l : Ladder) : Ladder := ⟨l.x3, l.z3, l.x2, l.z2⟩

def Ladder.bit (u : Nat) (l : Ladder) (bit : Bool) : Ladder :=
  if bit then (l.swap.step u).swap else l.step u

/-- The first coordinate of the multiple of a point. -/
def multiply (scalar u : Nat) : Nat :=
  let l := (bitsBelow 255 scalar).foldl (Ladder.bit u) ⟨1, 0, u, 1⟩
  l.x2 * inverse l.z2 % fieldOrder

/-- A secret as a scalar: a multiple of eight with bit 254 as its highest. -/
def scalarOf (secret : Block 32) : Nat :=
  let n := ofLittleEndian secret.bytes % (1 <<< 255)
  n % (1 <<< 254) / 8 * 8 + (1 <<< 254)

/-- The coordinate that a public key stands for: the top bit does not count. -/
def coordinateOf (key : Block 32) : Nat := ofLittleEndian key.bytes % (1 <<< 255) % fieldOrder

def sharedSecret (secret key : Block 32) : Block 32 :=
  ⟨littleEndian 32 (multiply (scalarOf secret) (coordinateOf key)), by simp⟩

/-- The public key of the base point, which is at nine. -/
def basePoint : Block 32 := ⟨littleEndian 32 9, by simp⟩

def publicKey (secret : Block 32) : Block 32 := sharedSecret secret basePoint

/-- Whether the secret contributed to a shared secret. To one of zeros it did not. -/
def contributory (shared : Block 32) : Bool := shared.bytes.any (· != 0)

end AgeCrypt.Curve25519
