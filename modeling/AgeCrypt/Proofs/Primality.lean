import Mathlib.Algebra.Field.ZMod
import Mathlib.FieldTheory.Finite.Basic
import Mathlib.Tactic.NormNum.Prime
import AgeCrypt.Crypto.Curve25519

/-!
# Large primes

By Pocklington's criterion, a number `n` is prime if a large divisor of `n - 1` is the order of an element in every field
whose characteristic divides `n` (`prime_of_order`). What has to be computed for it are powers modulo `n` (`Entry.Holds`),
and the primes of the divisor come earlier in the same list of entries (`prime_of_certifies`).

Main statements: `Curve25519.prime_fieldOrder`, `Curve25519.prime_order`, `Curve25519.prime_twistOrder`.
-/

namespace AgeCrypt

open Curve25519 (bitsBelow)

/-- A power modulo a number: squares once for each bit of the exponent, highest first. -/
def powMod (m base : Nat) (bits : List Bool) : Nat :=
  bits.foldl (fun acc bit => if bit then acc * acc % m * base % m else acc * acc % m) 1

theorem cast_foldl_powMod (m base exponent width : Nat) {acc : Nat} {n : Nat} (start : (acc : ZMod m) = (base : ZMod m) ^ n) :
    (((bitsBelow width exponent).foldl
      (fun acc bit => if bit then acc * acc % m * base % m else acc * acc % m) acc : Nat) : ZMod m) =
      (base : ZMod m) ^ (n * 2 ^ width + exponent % 2 ^ width) := by
  induction width generalizing acc n with
  | zero => simpa [bitsBelow, Nat.mod_one] using start
  | succ width ih =>
    have number : n * 2 ^ (width + 1) + exponent % 2 ^ (width + 1) =
        (2 * n + (exponent.testBit width).toNat) * 2 ^ width + exponent % 2 ^ width := by
      rw [Nat.toNat_testBit, Nat.mod_pow_succ]
      ring
    rw [number, bitsBelow, List.foldl_cons]
    refine ih ?_
    cases exponent.testBit width with
    | false => simp [ZMod.natCast_mod, start, ← pow_add, two_mul]
    | true => simp [ZMod.natCast_mod, start, ← pow_add, two_mul, pow_succ]

theorem cast_powMod (m base : Nat) {exponent width : Nat} (lt : exponent < 2 ^ width) :
    (powMod m base (bitsBelow width exponent) : ZMod m) = (base : ZMod m) ^ exponent := by
  have start : ((1 : Nat) : ZMod m) = (base : ZMod m) ^ 0 := by simp
  have power := cast_foldl_powMod m base exponent width start
  rw [Nat.zero_mul, Nat.zero_add, Nat.mod_eq_of_lt lt] at power
  exact power

/-- A number is prime if in every field whose characteristic divides it there is an element of a large order. -/
theorem prime_of_order {n factor base : Nat} (one_lt : 1 < n) (large : n < (factor + 1) ^ 2) (dvd : factor ∣ n - 1)
    (fermat : (base : ZMod n) ^ (n - 1) = 1)
    (units : ∀ q, q.Prime → q ∣ factor → IsUnit ((base : ZMod n) ^ ((n - 1) / q) - 1)) : n.Prime := by
  by_contra composite
  have small := Nat.minFac_sq_le_self (Nat.zero_lt_of_lt one_lt) composite
  have : Fact n.minFac.Prime := ⟨Nat.minFac_prime (Nat.ne_of_gt one_lt)⟩
  obtain ⟨cofactor, whole⟩ := dvd
  have positive : 0 < factor := Nat.pos_of_ne_zero fun zero => by
    rw [zero, Nat.zero_mul] at whole
    omega
  let reduce := ZMod.castHom (Nat.minFac_dvd n) (ZMod n.minFac)
  let x : ZMod n.minFac := reduce base ^ cofactor
  have one : x ^ factor = 1 := by
    rw [← pow_mul, Nat.mul_comm, ← whole, ← map_pow, fermat, map_one]
  have order : orderOf x = factor := by
    refine orderOf_eq_of_pow_and_pow_div_prime positive one fun q prime divides same => ?_
    obtain ⟨rest, rfl⟩ := divides
    have exponent : (n - 1) / q = cofactor * rest := by
      rw [whole, Nat.mul_assoc, Nat.mul_div_cancel_left _ prime.pos, Nat.mul_comm]
    have unit := (units q prime (Nat.dvd_mul_right q rest)).map reduce
    rw [Nat.mul_div_cancel_left _ prime.pos, ← pow_mul, ← exponent] at same
    rw [map_sub, map_pow, map_one, same, sub_self] at unit
    exact not_isUnit_zero unit
  have nonzero : x ≠ 0 := by
    intro zero
    rw [zero, zero_pow (Nat.ne_of_gt positive)] at one
    exact zero_ne_one one
  have divides : factor ∣ n.minFac - 1 := by
    rw [← order]
    exact orderOf_dvd_of_pow_eq_one (ZMod.pow_card_sub_one_eq_one nonzero)
  have two_le := (Fact.out : n.minFac.Prime).two_le
  have le : factor + 1 ≤ n.minFac := by
    have := Nat.le_of_dvd (by omega) divides
    omega
  exact absurd (Nat.lt_of_lt_of_le large (Nat.pow_le_pow_left le 2)) (Nat.not_lt.2 small)

/-- A number, an element, and primes whose product divides the number before it. -/
structure Entry where
  n : Nat
  base : Nat
  factors : List Nat

/-- What has to be computed for an entry. -/
def Entry.Holds (e : Entry) : Prop :=
  1 < e.n ∧ e.n < 2 ^ 256 ∧ e.n < (e.factors.prod + 1) ^ 2 ∧ e.factors.prod ∣ e.n - 1 ∧
    powMod e.n e.base (bitsBelow 256 (e.n - 1)) = 1 ∧
    ∀ q ∈ e.factors, Nat.Coprime (powMod e.n e.base (bitsBelow 256 ((e.n - 1) / q)) + (e.n - 1)) e.n

instance (e : Entry) : Decidable e.Holds := inferInstanceAs (Decidable (_ ∧ _))

theorem prime_of_holds {e : Entry} (holds : e.Holds) (primes : ∀ q ∈ e.factors, q.Prime) : e.n.Prime := by
  obtain ⟨one_lt, fits, large, dvd, fermat, coprime⟩ := holds
  have below : ∀ exponent ≤ e.n - 1, (powMod e.n e.base (bitsBelow 256 exponent) : ZMod e.n) = (e.base : ZMod e.n) ^ exponent :=
    fun exponent le => cast_powMod e.n e.base (by omega)
  refine @prime_of_order e.n _ e.base one_lt large dvd ?_ fun q prime divides => ?_
  · rw [← below _ (Nat.le_refl _), fermat, Nat.cast_one]
  · obtain ⟨factor, member, inside⟩ := (Prime.dvd_prod_iff prime.prime).1 divides
    obtain rfl := (Nat.prime_dvd_prime_iff_eq prime (primes factor member)).1 inside
    have unit := (ZMod.isUnit_iff_coprime _ _).2 (coprime q member)
    have before : ((e.n - 1 : Nat) : ZMod e.n) = -1 := by
      rw [Nat.cast_sub (Nat.le_of_lt one_lt), ZMod.natCast_self, Nat.cast_one, zero_sub]
    rwa [Nat.cast_add, below _ (Nat.div_le_self _ _), before, ← sub_eq_add_neg] at unit

/-- Each entry holds, and its primes are small ones or come before it. -/
def Certifies : List Nat → List Entry → Prop
  | _, [] => True
  | primes, e :: entries => (∀ q ∈ e.factors, q ∈ primes) ∧ e.Holds ∧ Certifies (e.n :: primes) entries

instance : (primes : List Nat) → (entries : List Entry) → Decidable (Certifies primes entries)
  | _, [] => isTrue trivial
  | primes, e :: entries =>
    have := instDecidableCertifies (e.n :: primes) entries
    inferInstanceAs (Decidable (_ ∧ _ ∧ _))

theorem prime_of_certifies {small : List Nat} {entries : List Entry} (primes : ∀ q ∈ small, q.Prime)
    (certifies : Certifies small entries) : ∀ n ∈ entries.map Entry.n, n.Prime := by
  induction entries generalizing small with
  | nil => exact List.forall_mem_nil _
  | cons e entries ih =>
    obtain ⟨known, holds, others⟩ := certifies
    have prime := prime_of_holds holds fun q member => primes q (known q member)
    exact List.forall_mem_cons.2 ⟨prime, ih (List.forall_mem_cons.2 ⟨prime, primes⟩) others⟩

namespace Curve25519

/-- The order of the base point. -/
def order : Nat := 2 ^ 252 + 27742317777372353535851937790883648493

/-- The order of a point of the twist. -/
def twistOrder : Nat := 2 ^ 253 - 55484635554744707071703875581767296995

/-- Entries up to the order of the field. -/
def fieldEntries : List Entry :=
  [⟨2773320623, 2, [569003]⟩,
   ⟨72106336199, 2, [2773320623]⟩,
   ⟨1919519569386763, 2, [8574133, 127]⟩,
   ⟨75445702479781427272750846543864801, 2, [1919519569386763, 72106336199]⟩,
   ⟨31757755568855353, 2, [430751, 4153]⟩,
   ⟨74058212732561358302231226437062788676166966415465897661863160754340907, 2,
    [75445702479781427272750846543864801, 31757755568855353]⟩,
   ⟨fieldOrder, 2, [74058212732561358302231226437062788676166966415465897661863160754340907]⟩]

/-- Entries up to the order of the base point. -/
def orderEntries : List Entry :=
  [⟨1257559732178653, 2, [1224481, 531581]⟩,
   ⟨4434155615661930479, 2, [1257559732178653]⟩,
   ⟨172054593956031949258510691, 2, [4434155615661930479]⟩,
   ⟨19757330305831588566944191468367130476339, 2, [172054593956031949258510691]⟩,
   ⟨276602624281642239937218680557139826668747, 2, [19757330305831588566944191468367130476339]⟩,
   ⟨order, 2, [276602624281642239937218680557139826668747]⟩]

/-- Entries up to the order of a point of the twist. -/
def twistEntries : List Entry :=
  [⟨5171003929967, 2, [28859, 2281]⟩,
   ⟨22561162540501040539, 2, [5171003929967]⟩,
   ⟨1013266244677, 2, [8053, 3911]⟩,
   ⟨203852586375664218368381551393371968928013, 2, [22561162540501040539, 1013266244677]⟩,
   ⟨104719073621178708975837602950775180438320278101, 2, [203852586375664218368381551393371968928013]⟩,
   ⟨27413359092552162435694767700453926735143482401279781, 2, [104719073621178708975837602950775180438320278101]⟩,
   ⟨twistOrder, 2, [27413359092552162435694767700453926735143482401279781]⟩]

theorem prime_fieldOrder : fieldOrder.Prime := by
  have small : ∀ q ∈ [127, 4153, 430751, 569003, 8574133], q.Prime := by norm_num
  have certifies : Certifies [127, 4153, 430751, 569003, 8574133] fieldEntries := by decide +kernel
  exact prime_of_certifies small certifies fieldOrder (by decide)

theorem prime_order : order.Prime := by
  have small : ∀ q ∈ [531581, 1224481], q.Prime := by norm_num
  have certifies : Certifies [531581, 1224481] orderEntries := by decide +kernel
  exact prime_of_certifies small certifies order (by decide)

theorem prime_twistOrder : twistOrder.Prime := by
  have small : ∀ q ∈ [2281, 3911, 8053, 28859], q.Prime := by norm_num
  have certifies : Certifies [2281, 3911, 8053, 28859] twistEntries := by decide +kernel
  exact prime_of_certifies small certifies twistOrder (by decide)

end Curve25519

end AgeCrypt
