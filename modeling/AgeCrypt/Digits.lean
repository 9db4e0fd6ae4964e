import AgeCrypt.Bytes

/-!
# Bytes as digits of a few bits

A byte string is regrouped into digits of `k` bits, highest bit first, the last digit filled up with zero
bits. Reading the digits back accepts only a filling of zeros that is shorter than a digit. Base64 has
digits of six bits, Bech32 of five.
-/

namespace AgeCrypt

/-- The lowest `width` bits of a number, highest first. -/
def bitsOf : (width : Nat) → Nat → List Bool
  | 0, _ => []
  | width + 1, n => n.testBit width :: bitsOf width n

/-- The number that bits denote, highest bit first. -/
def ofBits (bits : List Bool) : Nat := bits.foldl (fun n bit => 2 * n + bit.toNat) 0

def byteBits (bs : Bytes) : List Bool := bs.flatMap fun b => bitsOf 8 b.toNat

/-- A byte string as digits of `k` bits. -/
def digits (k : Nat) (bs : Bytes) : List Nat :=
  (pieces k (byteBits bs)).map fun bits => ofBits (bits ++ List.replicate (k - bits.length) false)

/-- The byte string that digits of `k` bits spell. -/
def ofDigits? (k : Nat) (ds : List Nat) : Option Bytes :=
  let bits := ds.flatMap (bitsOf k)
  let whole := bits.length / 8 * 8
  let filling := bits.drop whole
  if filling.length < k ∧ filling.all (· == false) then
    some ((pieces 8 (bits.take whole)).map fun bits => UInt8.ofNat (ofBits bits))
  else none

@[simp] theorem length_bitsOf (width n : Nat) : (bitsOf width n).length = width := by
  induction width with
  | zero => rfl
  | succ width ih => simp [bitsOf, ih]

@[simp] theorem length_byteBits (bs : Bytes) : (byteBits bs).length = 8 * bs.length := by
  induction bs with
  | nil => rfl
  | cons b bs ih =>
    simp only [byteBits, List.flatMap_cons, List.length_append, length_bitsOf, List.length_cons] at ih ⊢
    omega

/-- The digits spell no more bits than there are. -/
theorem length_of_ofDigits? {k : Nat} {ds : List Nat} {bs : Bytes} (spells : ofDigits? k ds = some bs) :
    8 * bs.length ≤ k * ds.length := by
  have total : (ds.flatMap (bitsOf k)).length = k * ds.length := by
    clear spells
    induction ds with
    | nil => rfl
    | cons d ds ih =>
      simp only [List.flatMap_cons, List.length_append, length_bitsOf, ih, List.length_cons, Nat.mul_succ]
      omega
  unfold ofDigits? at spells
  simp only [total] at spells
  split at spells
  · injection spells with spells
    subst spells
    have count : ∀ l : List Bool, 8 * (pieces 8 l).length ≤ l.length + 7 := by
      intro l
      fun_induction pieces 8 l with
      | case1 l h => simp
      | case2 l h ih =>
        have : l.length ≠ 0 := fun e => h (.inr (List.length_eq_zero_iff.1 e))
        simp only [List.length_cons, List.length_drop] at ih ⊢
        omega
    have := count ((ds.flatMap (bitsOf k)).take (k * ds.length / 8 * 8))
    simp only [List.length_map, List.length_take, total] at this ⊢
    omega
  · simp at spells

end AgeCrypt
