import Mathlib.GroupTheory.OrderOfElement
import Mathlib.NumberTheory.LegendreSymbol.Basic
import AgeCrypt.Proofs.LadderPoints

/-!
# Orders of points

The ladder tells the order of single points: nine is the coordinate of a point of large prime order on the curve, two is
that of another on the twist, and there are points of order eight and four. As a coordinate has at most two points, this
leaves no room for further ones, and eight times the prime takes all points to infinity (`cofactor_curve`,
`cofactor_twist`). A scalar, which is a multiple of eight, therefore takes a point to infinity exactly if its order divides
eight. Such points have five coordinates (`multiply_eq_zero_iff_lowOrder`).
-/

namespace AgeCrypt.Curve25519

open Montgomery

theorem cast_eq_cast {x y : Nat} (same : x % fieldOrder = y % fieldOrder) : (x : ZMod fieldOrder) = y :=
  (ZMod.natCast_eq_natCast_iff' x y fieldOrder).2 same

theorem eq_of_cast_eq {x y : Nat} (lt : x < fieldOrder) (lt' : y < fieldOrder) (same : (x : ZMod fieldOrder) = y) :
    x = y := by
  rwa [ZMod.natCast_eq_natCast_iff', Nat.mod_eq_of_lt lt, Nat.mod_eq_of_lt lt'] at same

theorem one_factor : ((1 : Nat) : ZMod fieldOrder) ≠ 0 := natCast_ne_zero (by decide) (by decide)

theorem two_factor : ((2 : Nat) : ZMod fieldOrder) ≠ 0 := natCast_ne_zero (by decide) (by decide)

theorem exists_stands {d : Nat} (factor : (d : ZMod fieldOrder) ≠ 0) {u y : ZMod fieldOrder}
    (square : y ^ 2 = d ^ 3 * (u ^ 3 + 486662 * u ^ 2 + u)) : ∃ D : Point d, Stands D u 1 := by
  have on : (curve (486662 : ZMod fieldOrder) d).Nonsingular (d * u) y := by
    rw [nonsingular_iff (regular factor), square]
    ring
  exact ⟨.some _ _ on, stands_some_iff.2 ⟨one_ne_zero, mul_one _⟩⟩

/-- By Euler's criterion, a power that is computed tells that a number has no root. -/
theorem not_isSquare {x : Nat} (power : powMod fieldOrder x (bitsBelow 255 (fieldOrder / 2)) = fieldOrder - 1) :
    ¬ IsSquare (x : ZMod fieldOrder) := by
  have half := cast_powMod fieldOrder x (by decide : fieldOrder / 2 < 2 ^ 255)
  have apart : ((fieldOrder - 1 : Nat) : ZMod fieldOrder) ≠ (1 : Nat) :=
    mt (ZMod.natCast_eq_natCast_iff' _ _ fieldOrder).1 (by decide)
  rw [power] at half
  intro square
  by_cases zero : (x : ZMod fieldOrder) = 0
  · rw [zero, zero_pow (by decide)] at half
    exact natCast_ne_zero (by decide) (by decide) half
  · rw [(ZMod.euler_criterion fieldOrder zero).1 square] at half
    exact apart (half.trans Nat.cast_one.symm)

theorem isSquare_mul {x y : ZMod fieldOrder} (irreducible : ¬ IsSquare x) (irreducible' : ¬ IsSquare y) :
    IsSquare (x * y) := by
  have power : ∀ z : ZMod fieldOrder, ¬ IsSquare z → z ≠ 0 ∧ z ^ (fieldOrder / 2) = -1 := by
    intro z none
    have nonzero : z ≠ 0 := fun zero => none (zero ▸ IsSquare.zero)
    exact ⟨nonzero, (ZMod.pow_div_two_eq_neg_one_or_one fieldOrder nonzero).resolve_left
      (mt (ZMod.euler_criterion fieldOrder nonzero).2 none)⟩
  obtain ⟨x_ne, half⟩ := power x irreducible
  obtain ⟨y_ne, half'⟩ := power y irreducible'
  rw [ZMod.euler_criterion fieldOrder (mul_ne_zero x_ne y_ne), mul_pow, half, half', neg_mul_neg, one_mul]

/-- Over every coordinate there is a point of the curve or of the twist by two, which has no root. -/
theorem exists_stands_or (u : ZMod fieldOrder) :
    (∃ D : Point 1, Stands D u 1) ∨ ∃ D : Point 2, Stands D u 1 := by
  by_cases square : IsSquare (u ^ 3 + 486662 * u ^ 2 + u)
  · obtain ⟨y, same⟩ := square
    refine .inl (exists_stands (y := y) one_factor ?_)
    rw [Nat.cast_one, same]
    ring
  · have two : ¬ IsSquare ((2 : Nat) : ZMod fieldOrder) := not_isSquare (by decide +kernel)
    obtain ⟨y, same⟩ := isSquare_mul two square
    refine .inr (exists_stands (y := 2 * y) two_factor ?_)
    rw [mul_pow, pow_two y, ← same]
    push_cast
    ring

/-- A number that is below the order of the field is the coordinate of a point, whose second coordinate is given. -/
structure IsCoordinate (d u y : Nat) : Prop where
  positive : 0 < u
  lt : u < fieldOrder
  square : y ^ 2 % fieldOrder = d ^ 3 * (u ^ 3 + 486662 * u ^ 2 + u) % fieldOrder

theorem IsCoordinate.exists_stands {d u y : Nat} (coordinate : IsCoordinate d u y) (factor : (d : ZMod fieldOrder) ≠ 0) :
    ∃ D : Point d, Stands D (u : ZMod fieldOrder) 1 := by
  refine Curve25519.exists_stands (y := y) factor ?_
  exact_mod_cast cast_eq_cast coordinate.square

section
variable {d u y : Nat} (coordinate : IsCoordinate d u y) (factor : (d : ZMod fieldOrder) ≠ 0)
include coordinate factor

theorem IsCoordinate.exists_prime_order {q : Nat} (prime : q.Prime) (fits : q < 2 ^ 255) (infinity : (ladderAt q u).z2 = 0) :
    ∃ P : Point d, Stands P (u : ZMod fieldOrder) 1 ∧ addOrderOf P = q := by
  obtain ⟨P, stands⟩ := coordinate.exists_stands factor
  have : Fact q.Prime := ⟨prime⟩
  have whole := (smul_eq_zero_iff factor stands (natCast_ne_zero coordinate.positive coordinate.lt) fits).2 infinity
  exact ⟨P, stands, addOrderOf_eq_prime whole fun zero => one_ne_zero (stands.eq_zero_iff.1 zero)⟩

theorem IsCoordinate.exists_two_power_order {n : Nat} (fits : 2 ^ (n + 1) < 2 ^ 255)
    (infinity : (ladderAt (2 ^ (n + 1)) u).z2 = 0) (finite : (ladderAt (2 ^ n) u).z2 ≠ 0) :
    ∃ P : Point d, addOrderOf P = 2 ^ (n + 1) := by
  obtain ⟨P, stands⟩ := coordinate.exists_stands factor
  have nonzero := natCast_ne_zero coordinate.positive coordinate.lt
  have below : 2 ^ n < 2 ^ 255 := Nat.lt_of_le_of_lt (Nat.pow_le_pow_right (by decide) (Nat.le_succ n)) fits
  have half := mt (smul_eq_zero_iff factor stands nonzero below).1 finite
  exact ⟨P, addOrderOf_eq_prime_pow half ((smul_eq_zero_iff factor stands nonzero fits).2 infinity)⟩

end

theorem mul_dvd_card {d : Nat} {P Q : Point d} {q n : Nat} (prime : q.Prime) (odd : q ≠ 2) (first : addOrderOf P = q)
    (second : addOrderOf Q = 2 ^ n) : 2 ^ n * q ∣ Nat.card (Point d) := by
  have coprime : Nat.Coprime (2 ^ n) q := Nat.Coprime.pow_left n ((Nat.coprime_primes Nat.prime_two prime).2 (Ne.symm odd))
  refine coprime.mul_dvd_of_dvd_of_dvd ?_ ?_
  · rw [← second]
    exact addOrderOf_dvd_natCard Q
  · rw [← first]
    exact addOrderOf_dvd_natCard P

/-- A divisor of the number of points that is large enough leaves little choice for it. -/
theorem smul_eq_zero_of_dvd_card {d k c : Nat} (dvd : k ∣ Nat.card (Point d)) (few : 2 * fieldOrder + 1 < k * (c + 1))
    (le : c ≤ 2) (P : Point d) : (k * c) • P = 0 := by
  obtain ⟨m, card⟩ := dvd
  have positive : 0 < m := by
    refine Nat.pos_of_ne_zero fun zero => ?_
    rw [zero, Nat.mul_zero] at card
    exact Nat.card_pos.ne' card
  have m_lt : m < c + 1 := by
    have bound := card_le (486662 : ZMod fieldOrder) (d : ZMod fieldOrder)
    rw [Nat.card_zmod] at bound
    exact Nat.lt_of_mul_lt_mul_left (Nat.lt_of_le_of_lt (card ▸ bound) few)
  have divides : m ∣ c := by
    interval_cases c <;> interval_cases m <;> decide
  obtain ⟨rest, rfl⟩ := divides
  rw [← Nat.mul_assoc, ← card, mul_nsmul', card_nsmul_eq_zero']

/-- The order of all points divides eight times a large prime. -/
structure Cofactor (d q : Nat) : Prop where
  factor : (d : ZMod fieldOrder) ≠ 0
  prime : q.Prime
  large : 2 ^ 252 < q
  infinity : ∀ P : Point d, (8 * q) • P = 0

/-- A coordinate of points of order eight. -/
def eighth : Nat := 325606250916557431795983626356110631294008115727848805560023387167927233504

/-- The other coordinate of points of order eight. -/
def otherEighth : Nat := 39382357235489614581723060781553021112529911719440698176882885853963445705823

/-- The base point has a prime order. -/
theorem exists_base : ∃ B : Point 1, Stands B ((9 : Nat) : ZMod fieldOrder) 1 ∧ addOrderOf B = order := by
  have coordinate : IsCoordinate 1 9 14781619447589544791020593568409986887264606134616475288964881837755586237401 :=
    ⟨by decide, by decide, by decide +kernel⟩
  exact coordinate.exists_prime_order one_factor prime_order (by decide) (by decide +kernel)

theorem cofactor_curve : Cofactor 1 order where
  factor := one_factor
  prime := prime_order
  large := by decide
  infinity P := by
    have low : IsCoordinate 1 eighth 25869741026945134960544184956460972567356779614910045322022475500191642319642 :=
      ⟨by decide, by decide, by decide +kernel⟩
    obtain ⟨B, _, first⟩ := exists_base
    obtain ⟨Q, second⟩ := low.exists_two_power_order (n := 2) one_factor (by decide) (by decide +kernel) (by decide +kernel)
    rw [← Nat.mul_one (8 * order)]
    exact smul_eq_zero_of_dvd_card (mul_dvd_card prime_order (by decide) first second) (by decide) (by decide) P

theorem cofactor_twist : Cofactor 2 twistOrder where
  factor := two_factor
  prime := prime_twistOrder
  large := by decide
  infinity P := by
    have base : IsCoordinate 2 2 16893788160309026681706007081237279345906129995238945011019371476578334742656 :=
      ⟨by decide, by decide, by decide +kernel⟩
    have low : IsCoordinate 2 (fieldOrder - 1) 25851164624550389790290378414333342085686308113475858052691635106742954981832 :=
      ⟨by decide, by decide, by decide +kernel⟩
    obtain ⟨B, _, first⟩ := base.exists_prime_order two_factor prime_twistOrder (by decide) (by decide +kernel)
    obtain ⟨Q, second⟩ := low.exists_two_power_order (n := 1) two_factor (by decide) (by decide +kernel) (by decide +kernel)
    rw [(by decide : 8 * twistOrder = 2 ^ 2 * twistOrder * 2)]
    exact smul_eq_zero_of_dvd_card (mul_dvd_card prime_twistOrder (by decide) first second) (by decide) (by decide) P

theorem not_dvd_of_large {q c k : Nat} (prime : q.Prime) (large : 2 ^ 252 < q) (c_pos : 0 < c) (c_lt : c < 2 ^ 252)
    (positive : 0 < k) (lt : k < 2 ^ 252) : ¬ q ∣ c * k := by
  intro divides
  rcases prime.dvd_mul.1 divides with left | right
  · exact Nat.not_le.2 (Nat.lt_trans c_lt large) (Nat.le_of_dvd c_pos left)
  · exact Nat.not_le.2 (Nat.lt_trans lt large) (Nat.le_of_dvd positive right)

/-- A multiple with the factor eight, and otherwise no large one, is infinity only if the one by eight is. -/
theorem Cofactor.eight_smul {d q : Nat} (cofactor : Cofactor d q) {D : Point d} {k : Nat} (positive : 0 < k)
    (lt : k < 2 ^ 252) (infinity : (8 * (2 * k)) • D = 0) : 8 • D = 0 := by
  have apart : ¬ q ∣ 2 * k := not_dvd_of_large cofactor.prime cofactor.large (by decide) (by decide) positive lt
  have coprime : Nat.gcd q (2 * k) = 1 := (Nat.Prime.coprime_iff_not_dvd cofactor.prime).2 apart
  refine addOrderOf_dvd_iff_nsmul_eq_zero.1 ?_
  calc addOrderOf D ∣ Nat.gcd (8 * q) (8 * (2 * k)) :=
        Nat.dvd_gcd (addOrderOf_dvd_of_nsmul_eq_zero (cofactor.infinity D)) (addOrderOf_dvd_of_nsmul_eq_zero infinity)
    _ = 8 := by rw [Nat.gcd_mul_left, coprime]

/-- Coordinates of points whose order divides eight, on the curve or on its twist. -/
def lowOrder : List Nat := [0, 1, fieldOrder - 1, eighth, otherEighth]

/-- Twice a point is at one only for the two coordinates of order eight: they are the roots of one factor of the
    quartic, and the other factor has none. -/
theorem eighth_of_quartic {u : ZMod fieldOrder} (root : ((u + 1) * (u - 1)) ^ 2 = 4 * u * (u ^ 2 + 486662 * u + 1)) :
    u = eighth ∨ u = otherEighth := by
  have product : (eighth : ZMod fieldOrder) * otherEighth = 1 := by
    exact_mod_cast cast_eq_cast (by decide +kernel : eighth * otherEighth % fieldOrder = 1 % fieldOrder)
  have sum : ((eighth : ZMod fieldOrder) + otherEighth) ^ 2 + 4 = 4 * (eighth + otherEighth) + 4 * 486664 := by
    exact_mod_cast cast_eq_cast (by decide +kernel :
      ((eighth + otherEighth) ^ 2 + 4) % fieldOrder = (4 * (eighth + otherEighth) + 4 * 486664) % fieldOrder)
  have irreducible : ¬ IsSquare ((4 - (eighth + otherEighth) : ZMod fieldOrder) ^ 2 - 4) := by
    have none : ¬ IsSquare (((4 + fieldOrder - (eighth + otherEighth)) ^ 2 + fieldOrder - 4 : Nat) : ZMod fieldOrder) :=
      not_isSquare (by decide +kernel)
    rw [cast_difference _ (by decide), Nat.cast_pow, cast_difference _ (by decide)] at none
    exact_mod_cast none
  have factored : (u - eighth) * (u - otherEighth) * (u ^ 2 - (4 - (eighth + otherEighth)) * u + 1) = 0 := by
    linear_combination root + (u ^ 2 - (4 - (eighth + otherEighth)) * u + 1) * product - u ^ 2 * sum
  rcases mul_eq_zero.1 factored with low | other
  · exact (mul_eq_zero.1 low).imp sub_eq_zero.1 sub_eq_zero.1
  · refine absurd ⟨2 * u - (4 - (eighth + otherEighth)), ?_⟩ irreducible
    linear_combination -4 * other

/-- Twice a point is never at minus one, because the quartic for this has no root. -/
theorem ne_of_quartic {u : ZMod fieldOrder} (nonzero : u ≠ 0) :
    ((u + 1) * (u - 1)) ^ 2 + 4 * u * (u ^ 2 + 486662 * u + 1) ≠ 0 := by
  intro root
  have irreducible : ¬ IsSquare ((8 + fieldOrder - 4 * 486662 : Nat) : ZMod fieldOrder) := not_isSquare (by decide +kernel)
  rw [cast_difference _ (by decide)] at irreducible
  refine irreducible ⟨(u + 1) ^ 2 / u, ?_⟩
  rw [div_mul_div_comm, eq_div_iff (mul_ne_zero nonzero nonzero)]
  push_cast
  linear_combination -root

/-- Doubled three times, a point comes to infinity at the first, at the second or at the third time. -/
theorem cases_of_eight_smul {d : Nat} (factor : (d : ZMod fieldOrder) ≠ 0) {D : Point d} {u : ZMod fieldOrder}
    (stands : Stands D u 1) (infinity : 8 • D = 0) :
    u = 0 ∨ (u + 1) * (u - 1) = 0 ∨ ((u + 1) * (u - 1)) ^ 2 + 4 * u * (u ^ 2 + 486662 * u + 1) = 0 ∨
      ((u + 1) * (u - 1)) ^ 2 = 4 * u * (u ^ 2 + 486662 * u + 1) := by
  have irreducible : ¬ IsSquare ((486662 : ZMod fieldOrder) ^ 2 - 4) := by
    have none : ¬ IsSquare ((486662 ^ 2 - 4 : Nat) : ZMod fieldOrder) := not_isSquare (by decide +kernel)
    rw [Nat.cast_sub (by decide), Nat.cast_pow, Nat.cast_ofNat, Nat.cast_ofNat] at none
    exact none
  have twice := stands.double (regular factor)
  have fourfold := twice.double (regular factor)
  have doubled : 8 • D = D + D + (D + D) + (D + D + (D + D)) := by
    simp only [← two_nsmul, ← mul_nsmul']
  rw [doubled, fourfold.add_self_eq_zero_iff (regular factor) irreducible,
    twice.add_self_eq_zero_iff (regular factor) irreducible,
    stands.add_self_eq_zero_iff (regular factor) irreducible, stands.eq_zero_iff] at infinity
  rcases infinity with ((one | zero) | first) | second
  · exact absurd one one_ne_zero
  · exact .inl zero
  · exact .inr (.inl (pow_eq_zero_iff two_ne_zero |>.1 first))
  · rcases mul_eq_zero.1 (pow_eq_zero_iff two_ne_zero |>.1 second) with minus | plus
    · exact .inr (.inr (.inl (by linear_combination minus)))
    · exact .inr (.inr (.inr (by linear_combination plus)))

/-- Only points at coordinates of low order have an order that divides eight. -/
theorem mem_lowOrder {d : Nat} (factor : (d : ZMod fieldOrder) ≠ 0) {D : Point d} {u : Nat} (positive : 0 < u)
    (lt : u < fieldOrder) (stands : Stands D (u : ZMod fieldOrder) 1) (infinity : 8 • D = 0) : u ∈ lowOrder := by
  have nonzero := natCast_ne_zero positive lt
  simp only [lowOrder, List.mem_cons, List.not_mem_nil, or_false]
  rcases cases_of_eight_smul factor stands infinity with zero | flat | minus | plus
  · exact absurd zero nonzero
  · rcases mul_eq_zero.1 flat with minus | plus
    · refine .inr (.inr (.inl (eq_of_cast_eq lt (by decide) ?_)))
      rw [Nat.cast_pred fieldOrder_pos, ZMod.natCast_self, zero_sub]
      exact eq_neg_of_add_eq_zero_left minus
    · refine .inr (.inl (eq_of_cast_eq lt (by decide) ?_))
      rw [Nat.cast_one]
      exact sub_eq_zero.1 plus
  · exact absurd minus (ne_of_quartic nonzero)
  · rcases eighth_of_quartic plus with low | low
    · exact .inr (.inr (.inr (.inl (eq_of_cast_eq lt (by decide) low))))
    · exact .inr (.inr (.inr (.inr (eq_of_cast_eq lt (by decide) low))))

/-- The ladder takes the coordinates of low order to infinity after eight. -/
theorem ladderAt_eight : ∀ u ∈ lowOrder, u = 0 ∨ (ladderAt 8 u).z2 = 0 := by decide +kernel

/-- A positive multiple of eight that is too small to be one of the large primes as well. -/
def IsScalar (n : Nat) : Prop := ∃ k, 0 < k ∧ k < 2 ^ 252 ∧ n = 8 * k

theorem IsScalar.lt {n : Nat} (scalar : IsScalar n) : n < 2 ^ 255 := by
  obtain ⟨k, _, k_lt, rfl⟩ := scalar
  omega

/-- A scalar takes a point to infinity exactly if the order of the point divides eight. -/
theorem multiply_eq_zero_iff_lowOrder {n u : Nat} (scalar : IsScalar n) (lt : u < fieldOrder) :
    multiply n u = 0 ↔ u ∈ lowOrder := by
  rcases Nat.eq_zero_or_pos u with rfl | u_pos
  · exact iff_of_true (multiply_at_zero n) List.mem_cons_self
  obtain ⟨d, q, cofactor, D, stands⟩ : ∃ d q, Cofactor d q ∧ ∃ D : Point d, Stands D (u : ZMod fieldOrder) 1 := by
    rcases exists_stands_or (u : ZMod fieldOrder) with curve | twist
    · exact ⟨1, order, cofactor_curve, curve⟩
    · exact ⟨2, twistOrder, cofactor_twist, twist⟩
  have nonzero := natCast_ne_zero u_pos lt
  have fits := scalar.lt
  obtain ⟨k, positive, k_lt, rfl⟩ := scalar
  constructor
  · intro zero
    have infinity := double_smul_eq_zero cofactor.factor stands nonzero fits zero
    rw [Nat.mul_left_comm] at infinity
    exact mem_lowOrder cofactor.factor u_pos lt stands (cofactor.eight_smul positive k_lt infinity)
  · intro low
    have eight := (ladderAt_eight u low).resolve_left (Nat.ne_of_gt u_pos)
    have infinity := (smul_eq_zero_iff cofactor.factor stands nonzero (by decide)).2 eight
    refine multiply_eq_zero cofactor.factor stands nonzero fits ?_
    rw [Nat.mul_comm, mul_nsmul', infinity, nsmul_zero]

end AgeCrypt.Curve25519
