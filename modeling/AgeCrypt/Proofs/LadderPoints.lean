import AgeCrypt.Proofs.MontgomeryCurve
import AgeCrypt.Proofs.Primality

/-!
# The ladder as a walk over points

Over every first coordinate but zero there is a point, on the curve or on its twist. The ladder is at two neighbouring
multiples of this point (`Follows`): a bit takes it to the two neighbours at twice the number and the bit, and all bits of
a scalar take it to the multiple by the scalar and the one after it (`follows_ladderAt`). What is computed is zero if the
multiple is infinity, and only if twice the multiple is (`multiply_eq_zero`, `double_smul_eq_zero`).
-/

namespace AgeCrypt.Curve25519

open Montgomery

instance : Fact fieldOrder.Prime := ⟨prime_fieldOrder⟩

theorem fieldOrder_pos : 0 < fieldOrder := by decide

/-- The denominators are below the order of the field, so that they can be subtracted. -/
structure Ladder.Reduced (l : Ladder) : Prop where
  z2 : l.z2 < fieldOrder
  z3 : l.z3 < fieldOrder

theorem cast_difference (x : Nat) {z : Nat} (lt : z < fieldOrder) :
    ((x + fieldOrder - z : Nat) : ZMod fieldOrder) = x - z := by
  rw [Nat.cast_sub (Nat.le_trans (Nat.le_of_lt lt) (Nat.le_add_left _ _)), Nat.cast_add, ZMod.natCast_self, add_zero]

namespace Ladder
variable {l : Ladder} {u : Nat}

theorem Reduced.swap (reduced : l.Reduced) : l.swap.Reduced := ⟨reduced.z3, reduced.z2⟩

theorem reduced_step (u : Nat) (l : Ladder) : (l.step u).Reduced :=
  ⟨Nat.mod_lt _ fieldOrder_pos, Nat.mod_lt _ fieldOrder_pos⟩

section
variable (reduced : l.Reduced)
include reduced

theorem cast_step_x2 : ((l.step u).x2 : ZMod fieldOrder) = ((l.x2 + l.z2) * (l.x2 - l.z2)) ^ 2 := by
  simp only [step, ZMod.natCast_mod, Nat.cast_mul, Nat.cast_add, cast_difference _ reduced.z2]
  ring

theorem cast_step_z2 : ((l.step u).z2 : ZMod fieldOrder) =
    4 * l.x2 * l.z2 * (l.x2 ^ 2 + 486662 * l.x2 * l.z2 + l.z2 ^ 2) := by
  have lt : (l.x2 + fieldOrder - l.z2) * (l.x2 + fieldOrder - l.z2) % fieldOrder < fieldOrder :=
    Nat.mod_lt _ fieldOrder_pos
  simp only [step, ZMod.natCast_mod, Nat.cast_mul, Nat.cast_add, cast_difference _ lt, cast_difference _ reduced.z2,
    Nat.cast_ofNat]
  ring

theorem cast_step_x3 : ((l.step u).x3 : ZMod fieldOrder) = (2 * (l.x2 * l.x3 - l.z2 * l.z3)) ^ 2 := by
  simp only [step, ZMod.natCast_mod, Nat.cast_mul, Nat.cast_add, cast_difference _ reduced.z2,
    cast_difference _ reduced.z3]
  ring

theorem cast_step_z3 : ((l.step u).z3 : ZMod fieldOrder) = u * (2 * (l.z2 * l.x3 - l.x2 * l.z3)) ^ 2 := by
  have lt : (l.x3 + l.z3) * (l.x2 + fieldOrder - l.z2) % fieldOrder < fieldOrder := Nat.mod_lt _ fieldOrder_pos
  simp only [step, ZMod.natCast_mod, Nat.cast_mul, Nat.cast_add, cast_difference _ lt, cast_difference _ reduced.z2,
    cast_difference _ reduced.z3]
  ring

end

end Ladder

/-- A point of the curve, for the factor one, or of the twist by another factor. -/
abbrev Point (d : Nat) := (curve (486662 : ZMod fieldOrder) d).Point

theorem natCast_ne_zero {n : Nat} (positive : 0 < n) (lt : n < fieldOrder) : (n : ZMod fieldOrder) ≠ 0 := by
  intro zero
  exact Nat.not_lt.2 (Nat.le_of_dvd positive ((ZMod.natCast_eq_zero_iff _ _).1 zero)) lt

theorem natCast_eq_zero_iff_of_lt {n : Nat} (lt : n < fieldOrder) : (n : ZMod fieldOrder) = 0 ↔ n = 0 := by
  refine ⟨fun zero => ?_, fun zero => by rw [zero, Nat.cast_zero]⟩
  by_contra positive
  exact natCast_ne_zero (Nat.pos_of_ne_zero positive) lt zero

theorem regular {d : ZMod fieldOrder} (factor : d ≠ 0) : Regular (486662 : ZMod fieldOrder) d where
  two := by exact_mod_cast natCast_ne_zero (n := 2) (by decide) (by decide)
  factor := factor
  coefficient := by
    have apart : ((486662 ^ 2 - 4 : Nat) : ZMod fieldOrder) ≠ 0 := natCast_ne_zero (by decide) (by decide)
    rw [Nat.cast_sub (by decide), Nat.cast_pow, Nat.cast_ofNat, Nat.cast_ofNat] at apart
    exact sub_ne_zero.1 apart

/-- The ladder is at two points. -/
structure Follows {d : Nat} (l : Ladder) (P Q : Point d) : Prop where
  reduced : l.Reduced
  first : Stands P (l.x2 : ZMod fieldOrder) l.z2
  second : Stands Q (l.x3 : ZMod fieldOrder) l.z3

namespace Follows
variable {d : Nat} {l : Ladder} {P Q D : Point d} {u : Nat}

theorem swap (follows : Follows l P Q) : Follows l.swap Q P := ⟨follows.reduced.swap, follows.second, follows.first⟩

theorem step (factor : (d : ZMod fieldOrder) ≠ 0) (follows : Follows l P Q) (difference : Stands (Q - P) (u : ZMod fieldOrder) 1)
    (nonzero : (u : ZMod fieldOrder) ≠ 0) : Follows (l.step u) (P + P) (P + Q) where
  reduced := Ladder.reduced_step u l
  first := by
    rw [Ladder.cast_step_x2 follows.reduced, Ladder.cast_step_z2 follows.reduced]
    exact follows.first.double (regular factor)
  second := by
    rw [Ladder.cast_step_x3 follows.reduced, Ladder.cast_step_z3 follows.reduced]
    exact follows.first.add (regular factor) follows.second difference nonzero

/-- A bit takes the ladder from two neighbouring multiples to those at twice the number and the bit. -/
theorem bit (factor : (d : ZMod fieldOrder) ≠ 0) {n : Nat} (follows : Follows l (n • D) ((n + 1) • D))
    (stands : Stands D (u : ZMod fieldOrder) 1) (nonzero : (u : ZMod fieldOrder) ≠ 0) (bit : Bool) :
    Follows (l.bit u bit) ((2 * n + bit.toNat) • D) ((2 * n + bit.toNat + 1) • D) := by
  have apart : (n + 1) • D - n • D = D := by rw [succ_nsmul, add_sub_cancel_left]
  cases bit with
  | false =>
    have next := follows.step factor (by rwa [apart]) nonzero
    rw [← add_nsmul, ← add_nsmul, ← two_mul, ← add_assoc, ← two_mul] at next
    exact next
  | true =>
    have next := (follows.swap.step factor (by rw [← neg_sub, apart]; exact stands.neg) nonzero).swap
    rw [← add_nsmul, ← add_nsmul, show n + 1 + n = 2 * n + 1 by omega, show n + 1 + (n + 1) = 2 * n + 1 + 1 by omega] at next
    exact next

/-- After the bits of a scalar, the ladder is at the multiple that they make of the number before them. -/
theorem foldl (factor : (d : ZMod fieldOrder) ≠ 0) (stands : Stands D (u : ZMod fieldOrder) 1) (nonzero : (u : ZMod fieldOrder) ≠ 0)
    (scalar width : Nat) {n : Nat} (follows : Follows l (n • D) ((n + 1) • D)) :
    let n' := n * 2 ^ width + scalar % 2 ^ width
    Follows ((bitsBelow width scalar).foldl (Ladder.bit u) l) (n' • D) ((n' + 1) • D) := by
  induction width generalizing l n with
  | zero => simpa [bitsBelow, Nat.mod_one] using follows
  | succ width ih =>
    have number : n * 2 ^ (width + 1) + scalar % 2 ^ (width + 1) =
        (2 * n + (scalar.testBit width).toNat) * 2 ^ width + scalar % 2 ^ width := by
      rw [Nat.toNat_testBit, Nat.mod_pow_succ]
      ring
    rw [number, bitsBelow, List.foldl_cons]
    exact ih (follows.bit factor stands nonzero _)

end Follows

/-- Where the ladder is after all bits of a scalar. -/
def ladderAt (scalar u : Nat) : Ladder := (bitsBelow 255 scalar).foldl (Ladder.bit u) ⟨1, 0, u, 1⟩

theorem cast_inverse (x : Nat) : (inverse x : ZMod fieldOrder) = (x : ZMod fieldOrder) ^ (fieldOrder - 2) :=
  cast_powMod fieldOrder x (by decide : fieldOrder - 2 < 2 ^ 255)

theorem multiply_lt (scalar u : Nat) : multiply scalar u < fieldOrder := Nat.mod_lt _ fieldOrder_pos

theorem cast_multiply (scalar u : Nat) : (multiply scalar u : ZMod fieldOrder) =
    (ladderAt scalar u).x2 * ((ladderAt scalar u).z2 : ZMod fieldOrder) ^ (fieldOrder - 2) := by
  have value : multiply scalar u = (ladderAt scalar u).x2 * inverse (ladderAt scalar u).z2 % fieldOrder := rfl
  rw [value, ZMod.natCast_mod, Nat.cast_mul, cast_inverse]

theorem multiply_eq_zero_iff (scalar u : Nat) : multiply scalar u = 0 ↔
    ((ladderAt scalar u).x2 : ZMod fieldOrder) = 0 ∨ ((ladderAt scalar u).z2 : ZMod fieldOrder) = 0 := by
  rw [← natCast_eq_zero_iff_of_lt (multiply_lt scalar u), cast_multiply, mul_eq_zero, pow_eq_zero_iff (by decide)]

section
variable {d : Nat} {D : Point d} {u : Nat} (factor : (d : ZMod fieldOrder) ≠ 0) (stands : Stands D (u : ZMod fieldOrder) 1)
  (nonzero : (u : ZMod fieldOrder) ≠ 0) {scalar : Nat} (fits : scalar < 2 ^ 255)
include factor stands nonzero fits

theorem follows_ladderAt : Follows (ladderAt scalar u) (scalar • D) ((scalar + 1) • D) := by
  have start : Follows ⟨1, 0, u, 1⟩ (0 • D) ((0 + 1) • D) := by
    rw [zero_nsmul, zero_add, one_nsmul]
    refine ⟨⟨fieldOrder_pos, (by decide : 1 < fieldOrder)⟩, stands_zero_iff.2 ⟨Nat.cast_zero, ?_⟩, ?_⟩
    · rw [Nat.cast_one]
      exact one_ne_zero
    · rwa [Nat.cast_one]
  have follows := start.foldl factor stands nonzero scalar 255
  rw [Nat.zero_mul, Nat.zero_add, Nat.mod_eq_of_lt fits] at follows
  exact follows

theorem smul_eq_zero_iff : scalar • D = 0 ↔ (ladderAt scalar u).z2 = 0 := by
  have follows := follows_ladderAt factor stands nonzero fits
  rw [follows.first.eq_zero_iff, natCast_eq_zero_iff_of_lt follows.reduced.z2]

theorem multiply_eq_zero (infinity : scalar • D = 0) : multiply scalar u = 0 := by
  refine (multiply_eq_zero_iff scalar u).2 (.inr ?_)
  exact (follows_ladderAt factor stands nonzero fits).first.eq_zero_iff.1 infinity

/-- What is computed is the coordinate of the multiple, unless that is infinity. -/
theorem stands_multiply (finite : scalar • D ≠ 0) :
    Stands (scalar • D) (multiply scalar u : ZMod fieldOrder) 1 := by
  have follows := follows_ladderAt factor stands nonzero fits
  have z2_ne := mt follows.first.eq_zero_iff.2 finite
  have value : (multiply scalar u : ZMod fieldOrder) * (ladderAt scalar u).z2 = (ladderAt scalar u).x2 := by
    have fermat := ZMod.pow_card_sub_one_eq_one z2_ne
    rw [(by decide : fieldOrder - 1 = fieldOrder - 2 + 1), pow_succ] at fermat
    rw [cast_multiply, mul_assoc, fermat, mul_one]
  exact follows.first.reduce z2_ne value

theorem double_smul_eq_zero (zero : multiply scalar u = 0) : (2 * scalar) • D = 0 := by
  have twice := (follows_ladderAt factor stands nonzero fits).first.double (regular factor)
  rw [← two_nsmul, ← mul_nsmul'] at twice
  refine twice.eq_zero_iff.2 ?_
  rcases (multiply_eq_zero_iff scalar u).1 zero with x2 | z2
  · rw [x2]
    ring
  · rw [z2]
    ring

end

/-- Each fraction has a part that is zero: it stands for infinity, for the point at zero or for nothing at all. -/
structure Ladder.Flat (l : Ladder) : Prop where
  reduced : l.Reduced
  first : (l.x2 : ZMod fieldOrder) * l.z2 = 0
  second : (l.x3 : ZMod fieldOrder) * l.z3 = 0

namespace Ladder.Flat
variable {l : Ladder}

theorem swap (flat : l.Flat) : l.swap.Flat := ⟨flat.reduced.swap, flat.second, flat.first⟩

theorem step (flat : l.Flat) : (l.step 0).Flat where
  reduced := reduced_step 0 l
  first := by
    rw [cast_step_z2 flat.reduced, mul_assoc 4, flat.first]
    ring
  second := by
    rw [cast_step_z3 flat.reduced, Nat.cast_zero]
    ring

theorem bit (flat : l.Flat) (bit : Bool) : (l.bit 0 bit).Flat := by
  cases bit with
  | false => exact flat.step
  | true => exact flat.swap.step.swap

theorem foldl (flat : l.Flat) (bits : List Bool) : (bits.foldl (Ladder.bit 0) l).Flat := by
  induction bits generalizing l with
  | nil => exact flat
  | cons bit bits ih => exact ih (flat.bit bit)

end Ladder.Flat

/-- The point at zero is its own inverse: it differs from infinity by itself, and the sum of the two cannot be computed
    from coordinates. What the ladder gives for it is zero all the same. -/
theorem multiply_at_zero (scalar : Nat) : multiply scalar 0 = 0 := by
  have start : Ladder.Flat ⟨1, 0, 0, 1⟩ :=
    ⟨⟨fieldOrder_pos, (by decide : 1 < fieldOrder)⟩, by rw [Nat.cast_zero, mul_zero], by rw [Nat.cast_zero, zero_mul]⟩
  exact (multiply_eq_zero_iff scalar 0).2 (mul_eq_zero.1 (start.foldl (bitsBelow 255 scalar)).first)

end AgeCrypt.Curve25519
