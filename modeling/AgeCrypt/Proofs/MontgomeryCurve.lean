import Mathlib.AlgebraicGeometry.EllipticCurve.Affine.Point
import Mathlib.Tactic.LinearCombination

/-!
# Montgomery curves by first coordinates

Twice a point, and the sum of two points whose difference is known, can be computed from first coordinates alone
(`Montgomery.Stands.double`, `Montgomery.Stands.add`). The coordinates are fractions, and a first coordinate is a fraction
times the factor of the twist, so that a curve and its twists share the formulas.
-/

namespace AgeCrypt.Montgomery

open WeierstrassCurve.Affine

variable {F : Type} [Field F]

/-- The curve `y² = x³ + d a x² + d² x`: for `d = 1` a Montgomery curve, for other `d` a twist of it. -/
def curve (a d : F) : WeierstrassCurve.Affine F := ⟨0, d * a, 0, d ^ 2, 0⟩

/-- What a field and the numbers of a curve have to satisfy. -/
structure Regular (a d : F) : Prop where
  two : (2 : F) ≠ 0
  factor : d ≠ 0
  coefficient : a ^ 2 ≠ 4

/-- A fraction stands for a point: for infinity, or for one whose first coordinate is that fraction times the factor. -/
def Stands {a d : F} : (curve a d).Point → F → F → Prop
  | .zero, x, z => z = 0 ∧ x ≠ 0
  | .some first _ _, x, z => z ≠ 0 ∧ first * z = d * x

variable {a d : F}

theorem equation_iff {x y : F} : (curve a d).Equation x y ↔ y ^ 2 = x ^ 3 + d * a * x ^ 2 + d ^ 2 * x := by
  rw [WeierstrassCurve.Affine.equation_iff]
  simp [curve]

theorem negY_eq (x y : F) : (curve a d).negY x y = -y := by
  simp [curve, negY]

theorem nonsingular_iff (regular : Regular a d) {x y : F} :
    (curve a d).Nonsingular x y ↔ y ^ 2 = x ^ 3 + d * a * x ^ 2 + d ^ 2 * x := by
  have discriminant : (curve a d).Δ ≠ 0 := by
    have value : (curve a d).Δ = 2 ^ 4 * d ^ 6 * (a ^ 2 - 4) := by
      simp only [WeierstrassCurve.Δ, WeierstrassCurve.b₂, WeierstrassCurve.b₄, WeierstrassCurve.b₆, WeierstrassCurve.b₈,
        curve]
      ring
    rw [value]
    exact mul_ne_zero (mul_ne_zero (pow_ne_zero 4 regular.two) (pow_ne_zero 6 regular.factor))
      (sub_ne_zero.2 regular.coefficient)
  rw [← equation_iff_nonsingular_of_Δ_ne_zero discriminant, equation_iff]

theorem stands_zero_iff {x z : F} : Stands (0 : (curve a d).Point) x z ↔ z = 0 ∧ x ≠ 0 := Iff.rfl

theorem stands_some_iff {first second x z : F} {on : (curve a d).Nonsingular first second} :
    Stands (Point.some first second on) x z ↔ z ≠ 0 ∧ first * z = d * x := Iff.rfl

theorem Stands.neg {P : (curve a d).Point} {x z : F} (stands : Stands P x z) : Stands (-P) x z := by
  cases P with
  | zero => exact stands
  | some first second on => exact stands

theorem Stands.eq_zero_iff {P : (curve a d).Point} {x z : F} (stands : Stands P x z) : P = 0 ↔ z = 0 := by
  cases P with
  | zero => exact iff_of_true rfl stands.1
  | some first second on => exact iff_of_false (Point.some_ne_zero on) stands.1

/-- A fraction can be divided out. -/
theorem Stands.reduce {P : (curve a d).Point} {x z u : F} (stands : Stands P x z) (nonzero : z ≠ 0) (quotient : u * z = x) :
    Stands P u 1 := by
  cases P with
  | zero => exact absurd stands.1 nonzero
  | some first second on =>
    refine stands_some_iff.2 ⟨one_ne_zero, mul_right_cancel₀ nonzero ?_⟩
    rw [mul_one, stands.2, ← quotient, mul_assoc]

/-- The equation of the curve in terms of a fraction. -/
theorem square_of_stands {first second x z : F} {on : (curve a d).Nonsingular first second}
    (stands : Stands (Point.some first second on) x z) :
    second ^ 2 * z ^ 4 = d ^ 3 * (x * z * (x ^ 2 + a * x * z + z ^ 2)) := by
  have fraction := stands.2
  have squared : first ^ 2 * z ^ 2 = d ^ 2 * x ^ 2 := by rw [← mul_pow, fraction, mul_pow]
  have cubed : first ^ 3 * z ^ 3 = d ^ 3 * x ^ 3 := by rw [← mul_pow, fraction, mul_pow]
  rw [equation_iff.1 on.1]
  linear_combination z * cubed + d * a * z ^ 2 * squared + d ^ 2 * z ^ 3 * fraction

/-- The first coordinate of twice a point, by its tangent. -/
theorem tangent {x y : F} (two : (2 : F) ≠ 0) (equation : y ^ 2 = x ^ 3 + d * a * x ^ 2 + d ^ 2 * x) (steep : y ≠ 0) :
    (((3 * x ^ 2 + 2 * (d * a) * x + d ^ 2) / (2 * y)) ^ 2 - d * a - x - x) * (4 * y ^ 2) = (x ^ 2 - d ^ 2) ^ 2 := by
  have slope : ((3 * x ^ 2 + 2 * (d * a) * x + d ^ 2) / (2 * y)) ^ 2 * (4 * y ^ 2) =
      (3 * x ^ 2 + 2 * (d * a) * x + d ^ 2) ^ 2 := by
    rw [div_pow, mul_pow, div_mul_eq_mul_div]
    have four : (2 : F) ^ 2 * y ^ 2 = 4 * y ^ 2 := by ring
    rw [four, mul_div_assoc, div_self, mul_one]
    rw [← four]
    exact mul_ne_zero (pow_ne_zero 2 two) (pow_ne_zero 2 steep)
  linear_combination slope - 4 * (d * a + 2 * x) * equation

/-- Where a fraction stands for a point on the axis, twice the point is infinity. -/
theorem ne_of_flat (regular : Regular a d) {x z : F} (nonzero : z ≠ 0) (root : x * z * (x ^ 2 + a * x * z + z ^ 2) = 0) :
    (x + z) * (x - z) ≠ 0 := by
  intro same
  have squares : x ^ 2 = z ^ 2 := by linear_combination same
  have x_ne : x ≠ 0 := by
    rintro rfl
    exact pow_ne_zero 2 nonzero (squares.symm.trans (zero_pow two_ne_zero))
  have line : z * (2 * z + a * x) = 0 := by
    have quadratic := (mul_eq_zero.1 root).resolve_left (mul_ne_zero x_ne nonzero)
    linear_combination quadratic - squares
  have half := (mul_eq_zero.1 line).resolve_left nonzero
  refine regular.coefficient (mul_right_cancel₀ (pow_ne_zero 2 nonzero) ?_)
  linear_combination (a * x - 2 * z) * half - a ^ 2 * squares

theorem Stands.double (regular : Regular a d) [DecidableEq F] {P : (curve a d).Point} {x z : F} (stands : Stands P x z) :
    Stands (P + P) (((x + z) * (x - z)) ^ 2) (4 * x * z * (x ^ 2 + a * x * z + z ^ 2)) := by
  cases P with
  | zero =>
    obtain ⟨rfl, nonzero⟩ := stands
    rw [← Point.zero_def, add_zero]
    exact stands_zero_iff.2 ⟨by ring, by simpa using nonzero⟩
  | some first second on =>
    have square := square_of_stands stands
    obtain ⟨nonzero, fraction⟩ := stands
    by_cases flat : second = 0
    · have vertical : second = (curve a d).negY first second := by rw [negY_eq, flat, neg_zero]
      have root : x * z * (x ^ 2 + a * x * z + z ^ 2) = 0 := by
        rw [flat, zero_pow two_ne_zero, zero_mul] at square
        exact (mul_eq_zero.1 square.symm).resolve_left (pow_ne_zero 3 regular.factor)
      rw [Point.add_self_of_Y_eq vertical]
      exact stands_zero_iff.2 ⟨by linear_combination 4 * root, pow_ne_zero 2 (ne_of_flat regular nonzero root)⟩
    · have steep : second ≠ (curve a d).negY first second := by
        rw [negY_eq]
        intro same
        exact flat ((mul_eq_zero.1 (by linear_combination same : 2 * second = 0)).resolve_left regular.two)
      have coordinate := tangent regular.two (equation_iff.1 on.1) flat
      have squared : first ^ 2 * z ^ 2 = d ^ 2 * x ^ 2 := by rw [← mul_pow, fraction, mul_pow]
      have whole : d ^ 3 * (4 * x * z * (x ^ 2 + a * x * z + z ^ 2)) = (2 * second * z ^ 2) ^ 2 := by
        linear_combination -4 * square
      rw [Point.add_self_of_Y_ne steep, stands_some_iff, slope_of_Y_ne rfl steep, negY_eq]
      have value : (curve a d).addX first first ((3 * first ^ 2 + 2 * (curve a d).a₂ * first + (curve a d).a₄ -
          (curve a d).a₁ * second) / (second - -second)) =
          ((3 * first ^ 2 + 2 * (d * a) * first + d ^ 2) / (2 * second)) ^ 2 - d * a - first - first := by
        simp only [curve, addX, zero_mul, sub_zero, add_zero, sub_neg_eq_add, two_mul]
      rw [value]
      constructor
      · intro zero
        rw [zero, mul_zero] at whole
        exact pow_ne_zero 2 (mul_ne_zero (mul_ne_zero regular.two flat) (pow_ne_zero 2 nonzero)) whole.symm
      · refine mul_left_cancel₀ (pow_ne_zero 3 regular.factor) ?_
        linear_combination (((3 * first ^ 2 + 2 * (d * a) * first + d ^ 2) / (2 * second)) ^ 2 - d * a - first - first) *
          whole + z ^ 4 * coordinate + (first ^ 2 * z ^ 2 + d ^ 2 * x ^ 2 - 2 * d ^ 2 * z ^ 2) * squared

/-- If no point but the one at zero is on the axis, twice a point is infinity only for it and for infinity. -/
theorem Stands.add_self_eq_zero_iff (regular : Regular a d) (irreducible : ¬ IsSquare (a ^ 2 - 4)) [DecidableEq F]
    {P : (curve a d).Point} {x z : F} (stands : Stands P x z) : P + P = 0 ↔ P = 0 ∨ x = 0 := by
  have only : x ^ 2 + a * x * z + z ^ 2 = 0 → z = 0 := by
    intro root
    by_contra nonzero
    refine irreducible ⟨(2 * x + a * z) / z, ?_⟩
    rw [div_mul_div_comm, eq_div_iff (mul_ne_zero nonzero nonzero)]
    linear_combination -4 * root
  have four : (4 : F) ≠ 0 := by
    rw [show (4 : F) = 2 * 2 by ring]
    exact mul_ne_zero regular.two regular.two
  rw [(stands.double regular).eq_zero_iff, stands.eq_zero_iff]
  constructor
  · intro zero
    rcases mul_eq_zero.1 zero with left | root
    · rcases mul_eq_zero.1 left with left | z_eq
      · exact .inr ((mul_eq_zero.1 left).resolve_left four)
      · exact .inl z_eq
    · exact .inl (only root)
  · rintro (rfl | rfl)
    · ring
    · ring

/-- The first coordinates of a sum and of the difference, by the chords. -/
theorem chord {x₁ y₁ x₂ y₂ : F} (equation₁ : y₁ ^ 2 = x₁ ^ 3 + d * a * x₁ ^ 2 + d ^ 2 * x₁)
    (equation₂ : y₂ ^ 2 = x₂ ^ 3 + d * a * x₂ ^ 2 + d ^ 2 * x₂) (apart : x₁ ≠ x₂) :
    (((y₁ - y₂) / (x₁ - x₂)) ^ 2 - d * a - x₁ - x₂) * (((y₁ + y₂) / (x₁ - x₂)) ^ 2 - d * a - x₁ - x₂) *
      (x₁ - x₂) ^ 2 = (x₁ * x₂ - d ^ 2) ^ 2 := by
  have nonzero : (x₁ - x₂) ^ 2 ≠ 0 := pow_ne_zero 2 (sub_ne_zero.2 apart)
  have cleared : ∀ y : F, ((y / (x₁ - x₂)) ^ 2 - d * a - x₁ - x₂) * (x₁ - x₂) ^ 2 =
      y ^ 2 - (d * a + x₁ + x₂) * (x₁ - x₂) ^ 2 := by
    intro y
    have quotient : (y / (x₁ - x₂)) ^ 2 * (x₁ - x₂) ^ 2 = y ^ 2 := by rw [div_pow, div_mul_cancel₀ _ nonzero]
    linear_combination quotient
  refine mul_right_cancel₀ nonzero ?_
  calc _ = ((y₁ - y₂) ^ 2 - (d * a + x₁ + x₂) * (x₁ - x₂) ^ 2) * ((y₁ + y₂) ^ 2 - (d * a + x₁ + x₂) * (x₁ - x₂) ^ 2) := by
        rw [← cleared, ← cleared]
        ring
    _ = (y₁ ^ 2 - y₂ ^ 2) ^ 2 - 2 * (y₁ ^ 2 + y₂ ^ 2) * ((d * a + x₁ + x₂) * (x₁ - x₂) ^ 2) +
        ((d * a + x₁ + x₂) * (x₁ - x₂) ^ 2) ^ 2 := by ring
    _ = (x₁ * x₂ - d ^ 2) ^ 2 * (x₁ - x₂) ^ 2 := by
        rw [equation₁, equation₂]
        ring

/-- The fractions that stand for a point of known coordinate. -/
theorem stands_iff_of_whole (regular : Regular a d) {P : (curve a d).Point} {u : F} (whole : Stands P u 1) {x z : F} :
    Stands P x z ↔ z ≠ 0 ∧ x = u * z := by
  cases P with
  | zero => exact absurd whole.1 one_ne_zero
  | some first second on =>
    rw [stands_some_iff]
    refine and_congr_right fun _ => ⟨fun fraction => mul_left_cancel₀ regular.factor ?_, fun same => ?_⟩
    · linear_combination z * whole.2 - fraction
    · linear_combination z * whole.2 - d * same

section
variable [DecidableEq F] {x₂ z₂ x₃ z₃ u : F}

/-- The sum of a point and its inverse, whose difference is twice the point. -/
theorem Stands.add_neg (regular : Regular a d) {Q : (curve a d).Point} (stands₂ : Stands (-Q) x₂ z₂)
    (stands₃ : Stands Q x₃ z₃) (z₂_ne : z₂ ≠ 0) (z₃_ne : z₃ ≠ 0) (difference : Stands (Q + Q) u 1) (nonzero : u ≠ 0) :
    Stands (-Q + Q) ((2 * (x₂ * x₃ - z₂ * z₃)) ^ 2) (u * (2 * (z₂ * x₃ - x₂ * z₃)) ^ 2) := by
  obtain ⟨twice_ne, twice⟩ := (stands_iff_of_whole regular difference).1 (stands₃.double regular)
  have equal : z₂ * x₃ - x₂ * z₃ = 0 := by
    have stands := stands₂.neg
    rw [neg_neg] at stands
    cases Q with
    | zero => exact absurd stands₃.1 z₃_ne
    | some first second on =>
      refine (mul_eq_zero.1 ?_).resolve_left regular.factor
      linear_combination z₃ * stands.2 - z₂ * stands₃.2
  rw [neg_add_cancel]
  refine stands_zero_iff.2 ⟨by rw [equal]; ring, pow_ne_zero 2 (mul_ne_zero regular.two fun same => ?_)⟩
  have squares : x₃ ^ 2 = z₃ ^ 2 := by
    refine mul_left_cancel₀ z₂_ne ?_
    linear_combination x₃ * equal + z₃ * same
  have zero : u * (4 * x₃ * z₃ * (x₃ ^ 2 + a * x₃ * z₃ + z₃ ^ 2)) = 0 := by
    rw [← twice]
    linear_combination (x₃ ^ 2 - z₃ ^ 2) * squares
  exact twice_ne ((mul_eq_zero.1 zero).resolve_left nonzero)

/-- The sum of two points that are neither equal nor inverse. -/
theorem Stands.add_of_ne (regular : Regular a d) {first₂ second₂ first₃ second₃ : F}
    {on₂ : (curve a d).Nonsingular first₂ second₂} {on₃ : (curve a d).Nonsingular first₃ second₃}
    (stands₂ : Stands (Point.some first₂ second₂ on₂) x₂ z₂) (stands₃ : Stands (Point.some first₃ second₃ on₃) x₃ z₃)
    (apart : first₂ ≠ first₃)
    (difference : Stands (Point.some first₃ second₃ on₃ - Point.some first₂ second₂ on₂) u 1) (nonzero : u ≠ 0) :
    Stands (Point.some first₂ second₂ on₂ + Point.some first₃ second₃ on₃) ((2 * (x₂ * x₃ - z₂ * z₃)) ^ 2)
      (u * (2 * (z₂ * x₃ - x₂ * z₃)) ^ 2) := by
  obtain ⟨z₂_ne, fraction₂⟩ := stands₂
  obtain ⟨z₃_ne, fraction₃⟩ := stands₃
  have product := chord (equation_iff.1 on₂.1) (equation_iff.1 on₃.1) apart
  have other : ((second₂ + second₃) / (first₂ - first₃)) ^ 2 - d * a - first₂ - first₃ = d * u := by
    have back := difference.neg
    rw [neg_sub, sub_eq_add_neg, Point.neg_some, Point.add_of_X_ne apart, stands_some_iff, slope_of_X_ne apart, negY_eq] at back
    have value := back.2
    simp only [curve, addX, zero_mul, add_zero, mul_one, sub_neg_eq_add] at value
    exact value
  have cross : d * (z₂ * x₃ - x₂ * z₃) = z₂ * z₃ * (first₃ - first₂) := by
    linear_combination z₃ * fraction₂ - z₂ * fraction₃
  rw [Point.add_of_X_ne apart, stands_some_iff, slope_of_X_ne apart]
  have value : (curve a d).addX first₂ first₃ ((second₂ - second₃) / (first₂ - first₃)) =
      ((second₂ - second₃) / (first₂ - first₃)) ^ 2 - d * a - first₂ - first₃ := by
    simp only [curve, addX, zero_mul, add_zero]
  rw [value]
  rw [other] at product
  constructor
  · refine mul_ne_zero nonzero (pow_ne_zero 2 (mul_ne_zero regular.two fun zero => ?_))
    rw [zero, mul_zero] at cross
    exact mul_ne_zero (mul_ne_zero z₂_ne z₃_ne) (sub_ne_zero.2 (Ne.symm apart)) cross.symm
  · have pair : first₂ * z₂ * (first₃ * z₃) = d ^ 2 * (x₂ * x₃) := by
      rw [fraction₂, fraction₃]
      ring
    refine mul_left_cancel₀ (pow_ne_zero 3 regular.factor) ?_
    linear_combination 4 * d * u * (((second₂ - second₃) / (first₂ - first₃)) ^ 2 - d * a - first₂ - first₃) *
      (d * (z₂ * x₃ - x₂ * z₃) + z₂ * z₃ * (first₃ - first₂)) * cross + 4 * (z₂ * z₃) ^ 2 * product +
      4 * (z₂ * z₃ * (first₂ * first₃ - d ^ 2) + d ^ 2 * (x₂ * x₃ - z₂ * z₃)) * pair

end

theorem Stands.add (regular : Regular a d) [DecidableEq F] {P Q : (curve a d).Point} {x₂ z₂ x₃ z₃ u : F}
    (stands₂ : Stands P x₂ z₂) (stands₃ : Stands Q x₃ z₃) (difference : Stands (Q - P) u 1) (nonzero : u ≠ 0) :
    Stands (P + Q) ((2 * (x₂ * x₃ - z₂ * z₃)) ^ 2) (u * (2 * (z₂ * x₃ - x₂ * z₃)) ^ 2) := by
  cases P with
  | zero =>
    rw [← Point.zero_def] at stands₂ difference ⊢
    rw [sub_zero] at difference
    obtain ⟨rfl, x₂_ne⟩ := stands_zero_iff.1 stands₂
    obtain ⟨z₃_ne, rfl⟩ := (stands_iff_of_whole regular difference).1 stands₃
    rw [zero_add, zero_mul, zero_mul, zero_sub, sub_zero]
    refine (stands_iff_of_whole regular difference).2 ⟨?_, by ring⟩
    exact mul_ne_zero nonzero (pow_ne_zero 2 (mul_ne_zero regular.two (neg_ne_zero.2 (mul_ne_zero x₂_ne z₃_ne))))
  | some first₂ second₂ on₂ =>
    cases Q with
    | zero =>
      rw [← Point.zero_def] at stands₃ difference ⊢
      rw [zero_sub] at difference
      obtain ⟨rfl, x₃_ne⟩ := stands_zero_iff.1 stands₃
      have whole := difference.neg
      rw [neg_neg] at whole
      obtain ⟨z₂_ne, rfl⟩ := (stands_iff_of_whole regular whole).1 stands₂
      rw [add_zero, mul_zero, mul_zero, sub_zero, sub_zero]
      refine (stands_iff_of_whole regular whole).2 ⟨?_, by ring⟩
      exact mul_ne_zero nonzero (pow_ne_zero 2 (mul_ne_zero regular.two (mul_ne_zero z₂_ne x₃_ne)))
    | some first₃ second₃ on₃ =>
      by_cases same : first₂ = first₃
      · rcases Point.X_eq_iff.1 same with equal | opposite
        · rw [equal, sub_self] at difference
          exact absurd (stands_zero_iff.1 difference).1 one_ne_zero
        · have z₂_ne := stands₂.1
          rw [opposite] at stands₂ difference ⊢
          rw [sub_neg_eq_add] at difference
          exact stands₂.add_neg regular stands₃ z₂_ne stands₃.1 difference nonzero
      · exact stands₂.add_of_ne regular stands₃ same difference nonzero

/-- A point is given by its first coordinate and by which of two second ones it has. -/
def code (root : F → F) : (curve a d).Point → Option (F × Prop)
  | .zero => none
  | .some first second _ => some (first, second = root first)

theorem code_injective {root : F → F}
    (isRoot : ∀ first second, second ^ 2 = first ^ 3 + d * a * first ^ 2 + d ^ 2 * first → root first ^ 2 = second ^ 2) :
    Function.Injective (@code F _ a d root) := by
  intro P Q same
  cases P with
  | zero =>
    cases Q with
    | zero => rfl
    | some first second on => cases same
  | some first second on =>
    cases Q with
    | zero => cases same
    | some first' second' on' =>
      obtain ⟨rfl, sign⟩ := Prod.mk.inj (Option.some.inj same)
      have square := isRoot first second (equation_iff.1 on.1)
      have square' := isRoot first second' (equation_iff.1 on'.1)
      have equal : second = second' := by
        by_cases positive : second = root first
        · rw [positive, sign.mp positive]
        · have negative := mt sign.mpr positive
          rw [(sq_eq_sq_iff_eq_or_eq_neg.1 square.symm).resolve_left positive,
            (sq_eq_sq_iff_eq_or_eq_neg.1 square'.symm).resolve_left negative]
      cases equal
      rfl

theorem exists_root (a d : F) : ∃ root : F → F, ∀ first second,
    second ^ 2 = first ^ 3 + d * a * first ^ 2 + d ^ 2 * first → root first ^ 2 = second ^ 2 := by
  refine ⟨fun first => Classical.epsilon fun y => y ^ 2 = first ^ 3 + d * a * first ^ 2 + d ^ 2 * first, ?_⟩
  intro first second equation
  rw [Classical.epsilon_spec (⟨second, equation⟩ : ∃ y, y ^ 2 = first ^ 3 + d * a * first ^ 2 + d ^ 2 * first), equation]

instance [Finite F] : Finite (curve a d).Point := by
  obtain ⟨root, isRoot⟩ := exists_root a d
  exact Finite.of_injective _ (code_injective isRoot)

theorem card_le [Finite F] (a d : F) : Nat.card (curve a d).Point ≤ 2 * Nat.card F + 1 := by
  obtain ⟨root, isRoot⟩ := exists_root a d
  have le := Nat.card_le_card_of_injective _ (code_injective isRoot)
  have signs : Nat.card Prop = 2 := by rw [Nat.card_eq_fintype_card, Fintype.card_prop]
  rw [Finite.card_option, Nat.card_prod, signs, Nat.mul_comm] at le
  exact le

end AgeCrypt.Montgomery
