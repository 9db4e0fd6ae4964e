import Mathlib.Algebra.Group.Nat.Defs
import AgeCrypt.Bech32

/-!
# The checksum of Bech32

The remainder of digits is linear in them with respect to exclusive or. As long as nothing that the last digits add is
shifted out, which is so for six of them, they add just the number that they denote (`remainder_append`).

Main statement: behind given digits there are six that make the remainder the target, and these are the checksum
(`remainder_eq_target_iff`).
-/

namespace AgeCrypt.Bech32

/-- What the highest bits of a remainder add when they are shifted out. -/
def feedback (r : Nat) : Nat :=
  generators.foldl (fun acc (bit, g) => if r.testBit bit then acc ^^^ g else acc) 0

theorem remainderStep_eq (r d : Nat) : remainderStep r d = r % 2 ^ 25 * 32 ^^^ d ^^^ feedback r := by
  have shift := @List.foldl_hom _ _ _ (r % 2 ^ 25 * 32 ^^^ d ^^^ ·)
    (fun acc ((bit, g) : Nat × Nat) => if r.testBit bit then acc ^^^ g else acc)
    (fun acc ((bit, g) : Nat × Nat) => if r.testBit bit then acc ^^^ g else acc) generators 0
  rw [Nat.xor_zero] at shift
  refine shift fun acc (bit, g) => ?_
  dsimp only
  split
  · exact Nat.xor_assoc _ acc g
  · rfl

/-- The bits below the highest ones are shifted, and nothing else depends on them. -/
theorem feedback_xor {r x : Nat} (lt : x < 2 ^ 25) : feedback (r ^^^ x) = feedback r := by
  have high : ∀ bit, 25 ≤ bit → (r ^^^ x).testBit bit = r.testBit bit := by
    intro bit le
    have above : x < 2 ^ bit := Nat.lt_of_lt_of_le lt (Nat.pow_le_pow_right (by decide) le)
    rw [Nat.testBit_xor, Nat.testBit_lt_two_pow above, Bool.xor_false]
  simp only [feedback, generators, List.foldl_cons, List.foldl_nil, high, Nat.reduceLeDiff]

theorem feedback_lt (r : Nat) : feedback r < 2 ^ 30 := by
  have bounded : ∀ gs : List (Nat × Nat), (∀ g ∈ gs, g.2 < 2 ^ 30) → ∀ acc < 2 ^ 30,
      gs.foldl (fun acc (bit, g) => if r.testBit bit then acc ^^^ g else acc) acc < 2 ^ 30 := by
    intro gs small
    induction gs with
    | nil => exact fun acc lt => lt
    | cons g gs ih =>
      intro acc lt
      obtain ⟨first, small⟩ := List.forall_mem_cons.1 small
      rw [List.foldl_cons]
      refine ih small _ ?_
      dsimp only
      split
      · exact Nat.xor_lt_two_pow lt first
      · exact lt
  exact bounded generators (by decide) 0 (by decide)

theorem remainderStep_lt {r d : Nat} (small : d < 32) : remainderStep r d < 2 ^ 30 := by
  have low : r % 2 ^ 25 < 2 ^ 25 := Nat.mod_lt r (by decide)
  rw [remainderStep_eq]
  refine Nat.xor_lt_two_pow (Nat.xor_lt_two_pow ?_ ?_) (feedback_lt r)
  · omega
  · omega

/-- A digit takes the place of the lowest bits. -/
theorem shifted_xor {x d : Nat} (small : d < 32) : x * 32 ^^^ d = 32 * x + d := by
  have five : d < 2 ^ 5 := small
  apply Nat.eq_of_testBit_eq
  intro bit
  rw [Nat.testBit_xor, show 32 * x + d = 2 ^ 5 * x + d from rfl, Nat.testBit_two_pow_mul_add x five,
    show x * 32 = 2 ^ 5 * x by omega, Nat.testBit_two_pow_mul]
  by_cases lt : bit < 5
  · simp [lt, Nat.not_le.2 lt]
  · have above : d < 2 ^ bit := Nat.lt_of_lt_of_le five (Nat.pow_le_pow_right (by decide) (Nat.le_of_not_lt lt))
    simp [lt, Nat.le_of_not_lt lt, Nat.testBit_lt_two_pow above]

/-- What is added to the low bits of a remainder is shifted along with them. -/
theorem remainderStep_xor {r x d : Nat} (lt : x < 2 ^ 25) (small : d < 32) :
    remainderStep (r ^^^ x) d = remainderStep r 0 ^^^ (32 * x + d) := by
  have low : (r ^^^ x) % 2 ^ 25 * 32 = r % 2 ^ 25 * 32 ^^^ x * 32 := by
    have shift := @Nat.shiftLeft_xor_distrib 5 (r % 2 ^ 25) x
    simp only [Nat.shiftLeft_eq] at shift
    rw [Nat.xor_mod_two_pow, Nat.mod_eq_of_lt lt]
    exact shift
  rw [remainderStep_eq, remainderStep_eq, feedback_xor lt, low, Nat.xor_zero, ← shifted_xor small, Nat.xor_assoc,
    Nat.xor_assoc, Nat.xor_assoc, ← Nat.xor_assoc (x * 32), Nat.xor_comm _ (feedback r)]

/-- The number that digits denote behind those of another one, highest first. -/
def numberAfter (x : Nat) (ds : List Nat) : Nat := ds.foldl (fun n d => 32 * n + d) x

def number (ds : List Nat) : Nat := numberAfter 0 ds

/-- The six lowest digits of a number. -/
def sixDigits (n : Nat) : List Nat :=
  [(n >>> 25) % 32, (n >>> 20) % 32, (n >>> 15) % 32, (n >>> 10) % 32, (n >>> 5) % 32, n % 32]

theorem checksum_eq_sixDigits (hrp : List Char) (ds : List Nat) :
    checksum hrp ds = sixDigits (remainder (expand hrp ++ ds ++ List.replicate 6 0) ^^^ target) := rfl

theorem length_checksum (hrp : List Char) (ds : List Nat) : (checksum hrp ds).length = 6 := rfl

theorem lt_of_mem_checksum {hrp : List Char} {ds : List Nat} {d : Nat} (member : d ∈ checksum hrp ds) : d < 32 := by
  rw [checksum_eq_sixDigits, sixDigits] at member
  simp only [List.mem_cons, List.not_mem_nil, or_false] at member
  omega

theorem number_sixDigits {n : Nat} (lt : n < 2 ^ 30) : number (sixDigits n) = n := by
  simp only [number, numberAfter, sixDigits, List.foldl_cons, List.foldl_nil]
  omega

theorem sixDigits_number {cs : List Nat} (six : cs.length = 6) (small : ∀ c ∈ cs, c < 32) :
    sixDigits (number cs) = cs := by
  match cs, six with
  | [a, b, c, d, e, f], _ =>
    simp only [List.forall_mem_cons] at small
    simp only [number, numberAfter, sixDigits, List.foldl_cons, List.foldl_nil, List.cons.injEq, and_true]
    omega

/-- Up to six digits in all change a remainder by the number that they denote. -/
theorem foldl_remainderStep {cs : List Nat} (small : ∀ c ∈ cs, c < 32) {k : Nat} (few : k + cs.length ≤ 6) (r : Nat)
    {x : Nat} (lt : x < 2 ^ (5 * k)) :
    cs.foldl remainderStep (r ^^^ x) = (List.replicate cs.length 0).foldl remainderStep r ^^^ numberAfter x cs := by
  induction cs generalizing k r x with
  | nil => rfl
  | cons c cs ih =>
    obtain ⟨first, small⟩ := List.forall_mem_cons.1 small
    rw [List.length_cons] at few
    have low : x < 2 ^ 25 := Nat.lt_of_lt_of_le lt (Nat.pow_le_pow_right (by decide) (by omega))
    have next : 32 * x + c < 2 ^ (5 * (k + 1)) := by
      rw [show 5 * (k + 1) = 5 * k + 5 by omega, Nat.pow_add]
      omega
    rw [List.foldl_cons, remainderStep_xor low first, ih small (by omega) _ next]
    rfl

theorem remainder_append (ds : List Nat) {cs : List Nat} (six : cs.length = 6) (small : ∀ c ∈ cs, c < 32) :
    remainder (ds ++ cs) = remainder (ds ++ List.replicate 6 0) ^^^ number cs := by
  have added := foldl_remainderStep small (k := 0) (by omega) (ds.foldl remainderStep 1) (by decide : 0 < 2 ^ (5 * 0))
  rw [Nat.xor_zero, six] at added
  rw [remainder, remainder, List.foldl_append, List.foldl_append]
  exact added

theorem remainder_zeros_lt (ds : List Nat) : remainder (ds ++ List.replicate 6 0) < 2 ^ 30 := by
  rw [remainder, List.replicate_succ', ← List.append_assoc, List.foldl_append, List.foldl_cons,
    List.foldl_nil]
  exact remainderStep_lt (by decide)

/-- Six digits behind others make the remainder the target exactly if they are the checksum. -/
theorem remainder_eq_target_iff {hrp : List Char} {ds cs : List Nat} (six : cs.length = 6) (small : ∀ c ∈ cs, c < 32) :
    remainder (expand hrp ++ (ds ++ cs)) = target ↔ cs = checksum hrp ds := by
  rw [← List.append_assoc, remainder_append _ six small, checksum_eq_sixDigits]
  have bounded := remainder_zeros_lt (expand hrp ++ ds)
  generalize remainder (expand hrp ++ ds ++ List.replicate 6 0) = rest at bounded
  constructor
  · intro right
    rw [← right, ← Nat.xor_assoc, Nat.xor_self, Nat.zero_xor, sixDigits_number six small]
  · rintro rfl
    rw [number_sixDigits (Nat.xor_lt_two_pow bounded (by decide)), ← Nat.xor_assoc, Nat.xor_self, Nat.zero_xor]

end AgeCrypt.Bech32
