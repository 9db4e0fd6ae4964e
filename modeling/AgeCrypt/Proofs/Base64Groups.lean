import AgeCrypt.Proofs.StanzaSelection

/-!
# Base64 in groups of four

Three bytes are written as four characters, and one or two bytes at the end as one character more than they are, whose lowest
bits are zero (`Base64.encode_eq_groups`). Thus the length of a text tells how many bytes it stands for, and to ask for the
length of `n` bytes first rejects no text that stands for `n` bytes. Main statement: `Base64.spelled_iff`.
-/

namespace AgeCrypt

/-- The highest bits of a number and those below. -/
theorem bitsOf_add (high low n : Nat) : bitsOf (high + low) n = bitsOf high (n / 2 ^ low) ++ bitsOf low n := by
  induction high with
  | zero => rw [Nat.zero_add]; rfl
  | succ high ih =>
    rw [Nat.succ_add_eq_add_succ, Nat.add_succ, bitsOf, ih, bitsOf, Nat.testBit_div_two_pow]
    rfl

/-- The lowest bits of a number in front of those of another. -/
theorem bitsOf_mul_add (high low n : Nat) {m : Nat} (lt : m < 2 ^ low) :
    bitsOf (high + low) (n % 2 ^ high * 2 ^ low + m) = bitsOf high n ++ bitsOf low m := by
  have front : (n % 2 ^ high * 2 ^ low + m) / 2 ^ low = n % 2 ^ high := by
    rw [Nat.add_comm, Nat.add_mul_div_right _ _ (Nat.two_pow_pos low), Nat.div_eq_of_lt lt, Nat.zero_add]
  have back : (n % 2 ^ high * 2 ^ low + m) % 2 ^ low = m := by
    rw [Nat.mul_comm, Nat.mul_add_mod, Nat.mod_eq_of_lt lt]
  rw [bitsOf_add, front, bitsOf_mod (Nat.le_refl high), ← bitsOf_mod (Nat.le_refl low) (n % 2 ^ high * 2 ^ low + m), back]

namespace Base64

/-- The digits of a byte string, four for three bytes. -/
def groups : Bytes → List Nat
  | a :: b :: c :: rest =>
    a.toNat / 4 :: (a.toNat % 4 * 16 + b.toNat / 16) :: (b.toNat % 16 * 4 + c.toNat / 64) :: c.toNat % 64 :: groups rest
  | [a, b] => [a.toNat / 4, a.toNat % 4 * 16 + b.toNat / 16, b.toNat % 16 * 4]
  | [a] => [a.toNat / 4, a.toNat % 4 * 16]
  | [] => []

theorem groups_lt (bs : Bytes) : ∀ d ∈ groups bs, d < 2 ^ 6 := by
  fun_induction groups bs with
  | case1 a b c rest ih =>
    have := a.toNat_lt
    have := b.toNat_lt
    have := c.toNat_lt
    simp only [List.forall_mem_cons]
    exact ⟨by omega, by omega, by omega, by omega, ih⟩
  | case2 a b =>
    have := a.toNat_lt
    have := b.toNat_lt
    simp only [List.forall_mem_cons]
    exact ⟨by omega, by omega, by omega, List.forall_mem_nil _⟩
  | case3 a =>
    have := a.toNat_lt
    simp only [List.forall_mem_cons]
    exact ⟨by omega, by omega, List.forall_mem_nil _⟩
  | case4 => exact List.forall_mem_nil _

/-- The bits of a digit that the first byte and the second share. -/
theorem bitsOf_shared (a b : UInt8) :
    bitsOf 6 (a.toNat % 4 * 16 + b.toNat / 16) = bitsOf 2 a.toNat ++ bitsOf 4 (b.toNat / 16) :=
  bitsOf_mul_add 2 4 a.toNat (Nat.div_lt_of_lt_mul (b.toNat_lt : _ < 16 * 16))

/-- The bits of the groups are those of the bytes, filled up with zeros. -/
theorem bits_groups (bs : Bytes) : ∃ filling < 6,
    (groups bs).flatMap (bitsOf 6) = byteBits bs ++ List.replicate filling false := by
  fun_induction groups bs with
  | case1 a b c rest ih =>
    obtain ⟨filling, short, spells⟩ := ih
    have third : bitsOf 6 (b.toNat % 16 * 4 + c.toNat / 64) = bitsOf 4 b.toNat ++ bitsOf 2 (c.toNat / 64) :=
      bitsOf_mul_add 4 2 b.toNat (Nat.div_lt_of_lt_mul (c.toNat_lt : _ < 64 * 4))
    have fourth : bitsOf 6 (c.toNat % 64) = bitsOf 6 c.toNat := bitsOf_mod (Nat.le_refl 6) c.toNat
    refine ⟨filling, short, ?_⟩
    rw [byteBits_cons, byteBits_cons, byteBits_cons, bitsOf_add 6 2, bitsOf_add 4 4, bitsOf_add 2 6]
    simp only [List.flatMap_cons, spells, bitsOf_shared, third, fourth, List.append_assoc]
    rfl
  | case2 a b =>
    have third : bitsOf 6 (b.toNat % 16 * 4 + 0) = bitsOf 4 b.toNat ++ bitsOf 2 0 :=
      bitsOf_mul_add 4 2 b.toNat (Nat.two_pow_pos 2)
    refine ⟨2, by decide, ?_⟩
    rw [Nat.add_zero] at third
    rw [byteBits_cons, byteBits_cons, bitsOf_add 6 2, bitsOf_add 4 4]
    simp only [List.flatMap_cons, bitsOf_shared, third, List.append_assoc]
    rfl
  | case3 a =>
    have second : bitsOf 6 (a.toNat % 4 * 16 + 0) = bitsOf 2 a.toNat ++ bitsOf 4 0 :=
      bitsOf_mul_add 2 4 a.toNat (Nat.two_pow_pos 4)
    refine ⟨4, by decide, ?_⟩
    rw [Nat.add_zero] at second
    rw [byteBits_cons, bitsOf_add 6 2]
    simp only [List.flatMap_cons, second, List.append_assoc]
    rfl
  | case4 => exact ⟨0, by decide, rfl⟩

theorem encode_eq_groups (bs : Bytes) : encode bs = (groups bs).map symbol := by
  obtain ⟨filling, short, spells⟩ := bits_groups bs
  rw [encode, digits, digits_of_bits short (groups_lt bs) spells]

theorem length_groups (bs : Bytes) :
    (groups bs).length = 4 * (bs.length / 3) + (if bs.length % 3 = 0 then 0 else bs.length % 3 + 1) := by
  fun_induction groups bs with
  | case1 a b c rest ih =>
    simp only [List.length_cons, ih]
    split <;> split <;> omega
  | case2 a b => simp
  | case3 a => simp
  | case4 => rfl

/-- A text stands for a block exactly if it is the Base64 of the block. To ask for its length first rejects no such text: the
    Base64 of `n` bytes has four characters for each group of three bytes, and one more than there are bytes behind the
    groups, if there are any. -/
theorem spelled_iff (n : Nat) (s : String) :
    (∀ b : Block n, blockOf? n s = some b ↔ s = encodeText b.bytes) ∧
    blockOf? n s = (decode s.toList).bind (Block.ofBytes? n) ∧
    ∀ b : Block n, (encodeText b.bytes).utf8ByteSize = (4 * n + 2) / 3 ∧
      encode b.bytes = (groups b.bytes).map symbol ∧
      (groups b.bytes).length = 4 * (n / 3) + if n % 3 = 0 then 0 else n % 3 + 1 := by
  refine ⟨fun b => blockOf?_eq_some_iff, ?_, fun b => ⟨?_, encode_eq_groups b.bytes, ?_⟩⟩
  · ext b
    rw [blockOf?_eq_some_iff, decodeBlock_eq_some_iff]
  · rw [utf8ByteSize_encodeText, b.length_bytes]
  · rw [length_groups, b.length_bytes]

end Base64

end AgeCrypt
