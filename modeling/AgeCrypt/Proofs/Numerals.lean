import Mathlib.Algebra.Group.Nat.Defs
import AgeCrypt.Base64

/-!
# The numbers that bits, bytes and digits denote

Bits and bytes denote numbers below a power of two (`ofBits_bitsOf`, `ofLittleEndian_littleEndian`). Bytes that are regrouped
into digits of a few bits are read back, and no other digits are read as them, since the last digit is filled up with zeros
(`ofDigits?_eq_some_iff`). Thus Base64 has one spelling of each byte string (`Base64.decode_eq_some_iff`).
-/

namespace AgeCrypt

/-- Reading back gives the number modulo the range of the bytes. -/
theorem ofLittleEndian_littleEndian (width n : Nat) : ofLittleEndian (littleEndian width n) = n % 256 ^ width := by
  induction width generalizing n with
  | zero => simp [littleEndian, ofLittleEndian, Nat.mod_one]
  | succ width ih =>
    rw [littleEndian, ofLittleEndian, ih, Nat.pow_succ, Nat.mul_comm (256 ^ width) 256, Nat.mod_mul]
    simp

theorem foldl_bits (bits : List Bool) (n : Nat) :
    bits.foldl (fun n bit => 2 * n + bit.toNat) n = 2 ^ bits.length * n + ofBits bits := by
  induction bits generalizing n with
  | nil => simp [ofBits]
  | cons bit bits ih =>
    simp only [ofBits, List.foldl_cons, List.length_cons, Nat.mul_zero, Nat.zero_add] at ih ⊢
    rw [ih, ih bit.toNat, Nat.pow_succ, Nat.mul_add, Nat.mul_assoc]
    omega

theorem ofBits_cons (bit : Bool) (bits : List Bool) :
    ofBits (bit :: bits) = 2 ^ bits.length * bit.toNat + ofBits bits := by
  rw [ofBits, List.foldl_cons, Nat.mul_zero, Nat.zero_add, foldl_bits]

theorem ofBits_lt (bits : List Bool) : ofBits bits < 2 ^ bits.length := by
  induction bits with
  | nil => simp [ofBits]
  | cons bit bits ih =>
    rw [ofBits_cons, List.length_cons, Nat.pow_succ]
    cases bit <;> simp <;> omega

theorem ofBits_bitsOf (width n : Nat) : ofBits (bitsOf width n) = n % 2 ^ width := by
  induction width with
  | zero => simp [bitsOf, ofBits, Nat.mod_one]
  | succ width ih =>
    rw [bitsOf, ofBits_cons, ih, length_bitsOf, Nat.toNat_testBit, Nat.mod_pow_succ, Nat.add_comm]

theorem bitsOf_mod {width bound : Nat} (le : width ≤ bound) (n : Nat) :
    bitsOf width (n % 2 ^ bound) = bitsOf width n := by
  induction width with
  | zero => rfl
  | succ width ih =>
    rw [bitsOf, bitsOf, ih (by omega), Nat.testBit_mod_two_pow, decide_eq_true (by omega), Bool.true_and]

theorem bitsOf_ofBits (bits : List Bool) : bitsOf bits.length (ofBits bits) = bits := by
  induction bits with
  | nil => rfl
  | cons bit bits ih =>
    have lt := ofBits_lt bits
    rw [List.length_cons, bitsOf, ofBits_cons, Nat.testBit_two_pow_mul_add _ lt, if_neg (Nat.lt_irrefl _),
      Nat.sub_self, ← bitsOf_mod (Nat.le_refl _), Nat.mul_add_mod, Nat.mod_eq_of_lt lt, ih]
    cases bit <;> rfl

/-- The bits of the digits of bits are those bits and the filling of the last digit. -/
theorem flatMap_digits {k : Nat} (pos : 0 < k) (bits : List Bool) :
    ((pieces k bits).map fun part => ofBits (part ++ List.replicate (k - part.length) false)).flatMap (bitsOf k) =
      bits ++ List.replicate ((k - bits.length % k) % k) false := by
  have one : ∀ part : List Bool, part.length ≤ k →
      bitsOf k (ofBits (part ++ List.replicate (k - part.length) false)) =
        part ++ List.replicate (k - part.length) false := by
    intro part le
    have := bitsOf_ofBits (part ++ List.replicate (k - part.length) false)
    rwa [List.length_append, List.length_replicate, Nat.add_sub_cancel' le] at this
  fun_induction pieces k bits with
  | case1 bits stop =>
    rcases stop with stop | rfl
    · omega
    · simp
  | case2 bits more ih =>
    rw [List.map_cons, List.flatMap_cons, one _ (by simp only [List.length_take]; omega), ih]
    rcases Nat.lt_or_ge bits.length k with short | long
    · have : bits.length ≠ 0 := fun e => more (.inr (List.length_eq_zero_iff.1 e))
      rw [List.take_of_length_le (by omega), List.drop_eq_nil_of_le (by omega), List.length_nil,
        Nat.mod_eq_of_lt short, Nat.mod_eq_of_lt (by omega : k - bits.length < k)]
      simp
    · rw [List.length_take, Nat.min_eq_left long, Nat.sub_self, List.replicate_zero, List.append_nil,
        ← List.append_assoc, List.take_append_drop, List.length_drop, Nat.mod_eq_sub_mod long]

theorem byteBits_cons (b : UInt8) (bs : Bytes) : byteBits (b :: bs) = bitsOf 8 b.toNat ++ byteBits bs := rfl

/-- The bytes of the bits of a byte string. -/
theorem map_pieces_byteBits (bs : Bytes) :
    ((pieces 8 (byteBits bs)).map fun bits => UInt8.ofNat (ofBits bits)) = bs := by
  induction bs with
  | nil => simp [byteBits, pieces]
  | cons b bs ih =>
    have size : (bitsOf 8 b.toNat).length = 8 := length_bitsOf 8 _
    rw [byteBits_cons, pieces, if_neg (by simp [bitsOf]), List.take_left' size, List.drop_left' size,
      List.map_cons, ih, ofBits_bitsOf]
    simp

/-- The bits of the bytes of bits. -/
theorem byteBits_map_pieces (n : Nat) (bits : List Bool) (whole : bits.length = 8 * n) :
    byteBits ((pieces 8 bits).map fun part => UInt8.ofNat (ofBits part)) = bits := by
  induction n generalizing bits with
  | zero =>
    obtain rfl := List.length_eq_zero_iff.1 whole
    simp [byteBits, pieces]
  | succ n ih =>
    have size : (bits.take 8).length = 8 := by simp only [List.length_take]; omega
    have first := bitsOf_ofBits (bits.take 8)
    have lt := ofBits_lt (bits.take 8)
    rw [size] at first lt
    rw [pieces, if_neg (by rintro (h | rfl) <;> simp at *), List.map_cons, byteBits_cons,
      ih (bits.drop 8) (by simp only [List.length_drop]; omega), UInt8.toNat_ofNat_of_lt' lt, first,
      List.take_append_drop]

theorem ofDigits?_digits {k : Nat} (pos : 0 < k) (le : k ≤ 8) (bs : Bytes) :
    ofDigits? k (digits k bs) = some bs := by
  have filling := Nat.mod_lt (k - (byteBits bs).length % k) pos
  have bits := flatMap_digits pos (byteBits bs)
  have whole : ((byteBits bs).length + (k - (byteBits bs).length % k) % k) / 8 * 8 = (byteBits bs).length := by
    rw [length_byteBits] at filling ⊢
    omega
  simp only [ofDigits?, digits, bits, List.length_append, List.length_replicate, whole, List.drop_left,
    List.take_left, filling, map_pieces_byteBits]
  simp

/-- Digits that spell bits, up to a filling of zeros that is shorter than a digit, are the digits of these
    bits. -/
theorem digits_of_bits {k : Nat} {ds : List Nat} {bits : List Bool} {filling : Nat} (short : filling < k)
    (bounded : ∀ d ∈ ds, d < 2 ^ k) (spells : ds.flatMap (bitsOf k) = bits ++ List.replicate filling false) :
    ((pieces k bits).map fun part => ofBits (part ++ List.replicate (k - part.length) false)) = ds := by
  induction ds generalizing bits with
  | nil =>
    have none := List.append_eq_nil_iff.1 spells.symm
    simp [none.1, pieces]
  | cons d ds ih =>
    have size := congrArg List.length spells
    have lt := bounded d List.mem_cons_self
    simp only [List.flatMap_cons, List.length_append, length_bitsOf, List.length_replicate] at size
    have some : bits ≠ [] := by
      rintro rfl
      simp at size
      omega
    rw [pieces, if_neg (by simp [some]; omega), List.map_cons]
    rcases Nat.lt_or_ge bits.length k with less | more
    · have last : ds = [] := by
        cases ds with
        | nil => rfl
        | cons e ds =>
          simp only [List.flatMap_cons, List.length_append, length_bitsOf] at size
          omega
      subst last
      simp only [List.flatMap_nil, List.length_nil, List.flatMap_cons, List.append_nil] at size spells
      rw [List.take_of_length_le (by omega), List.drop_eq_nil_of_le (by omega),
        (by omega : k - bits.length = filling), ← spells, ofBits_bitsOf, Nat.mod_eq_of_lt lt]
      simp [pieces]
    · have cut := congrArg (List.take k) spells
      have rest := congrArg (List.drop k) spells
      rw [List.flatMap_cons, List.take_left' (length_bitsOf k d), List.take_append_of_le_length more] at cut
      rw [List.flatMap_cons, List.drop_left' (length_bitsOf k d), List.drop_append_of_le_length more] at rest
      rw [ih (fun e mem => bounded e (List.mem_cons_of_mem d mem)) rest, ← cut, length_bitsOf, Nat.sub_self,
        List.replicate_zero, List.append_nil, ofBits_bitsOf, Nat.mod_eq_of_lt lt]

theorem digits_of_ofDigits? {k : Nat} {ds : List Nat} {bs : Bytes} (bounded : ∀ d ∈ ds, d < 2 ^ k)
    (spells : ofDigits? k ds = some bs) : digits k bs = ds := by
  unfold ofDigits? at spells
  simp only at spells
  split at spells
  · rename_i canonical
    obtain ⟨short, zero⟩ := canonical
    injection spells with spells
    subst spells
    rw [digits, byteBits_map_pieces ((ds.flatMap (bitsOf k)).length / 8) _
      (by simp only [List.length_take]; omega)]
    refine digits_of_bits short bounded ?_
    have zeros := List.eq_replicate_iff.2 ⟨rfl, fun bit mem => by simpa using List.all_eq_true.1 zero bit mem⟩
    rw [← zeros, List.take_append_drop]
  · simp at spells

/-- Digits that spell a byte string are the digits of that byte string. -/
theorem ofDigits?_eq_some_iff {k : Nat} (pos : 0 < k) (le : k ≤ 8) {ds : List Nat} {bs : Bytes}
    (bounded : ∀ d ∈ ds, d < 2 ^ k) : ofDigits? k ds = some bs ↔ ds = digits k bs :=
  ⟨fun spells => (digits_of_ofDigits? bounded spells).symm, fun same => same ▸ ofDigits?_digits pos le bs⟩

theorem lt_of_mem_digits {k d : Nat} {bs : Bytes} (mem : d ∈ digits k bs) : d < 2 ^ k := by
  obtain ⟨part, cut, rfl⟩ := List.mem_map.1 mem
  have le := length_of_mem_pieces cut
  have lt := ofBits_lt (part ++ List.replicate (k - part.length) false)
  rwa [List.length_append, List.length_replicate, Nat.add_sub_cancel' le] at lt

/-- A symbol stands in an alphabet where it is found. -/
theorem getD_of_idxOf? {alphabet : List Char} {c other : Char} {d : Nat} (found : alphabet.idxOf? c = some d) :
    alphabet.getD d other = c ∧ d < alphabet.length := by
  obtain ⟨lt, same, _⟩ := List.idxOf?_eq_some_iff.1 found
  rw [List.getD_eq_getElem?_getD, List.getElem?_eq_getElem lt, Option.getD_some]
  exact ⟨same, lt⟩

namespace Base64

theorem digit?_symbol {d : Nat} (lt : d < 64) : digit? (symbol d) = some d := by
  have all : ∀ d : Fin 64, digit? (symbol d) = some d.val := by decide +kernel
  exact all ⟨d, lt⟩

theorem symbol_of_digit? {c : Char} {d : Nat} (h : digit? c = some d) : symbol d = c ∧ d < 64 := by
  have size : alphabet.length = 64 := by decide +kernel
  obtain ⟨same, lt⟩ := getD_of_idxOf? h
  exact ⟨same, size ▸ lt⟩

theorem mapM_digit? {cs : List Char} {ds : List Nat} :
    cs.mapM digit? = some ds ↔ cs = ds.map symbol ∧ ∀ d ∈ ds, d < 64 := by
  induction cs generalizing ds with
  | nil =>
    cases ds <;> simp
  | cons c cs ih =>
    simp only [List.mapM_cons, Option.bind_eq_bind, Option.bind_eq_some_iff, Option.pure_def, Option.some.injEq]
    constructor
    · rintro ⟨d, first, rest, tail, rfl⟩
      obtain ⟨rfl, small⟩ := ih.1 tail
      obtain ⟨rfl, lt⟩ := symbol_of_digit? first
      simpa [lt] using small
    · rintro ⟨same, small⟩
      cases ds with
      | nil => simp at same
      | cons d ds =>
        obtain ⟨rfl, rfl⟩ := List.cons.inj same
        obtain ⟨lt, small⟩ := List.forall_mem_cons.1 small
        exact ⟨d, digit?_symbol lt, ds, ih.2 ⟨rfl, small⟩, rfl⟩

/-- Decoding accepts exactly what encoding gives. -/
theorem decode_eq_some_iff {cs : List Char} {bs : Bytes} : decode cs = some bs ↔ cs = encode bs := by
  simp only [decode, Option.bind_eq_some_iff, mapM_digit?]
  constructor
  · rintro ⟨ds, ⟨rfl, small⟩, spells⟩
    rw [encode, digits_of_ofDigits? small spells]
  · rintro rfl
    exact ⟨digits 6 bs, ⟨rfl, fun d mem => lt_of_mem_digits mem⟩, ofDigits?_digits (by decide) (by decide) bs⟩

end Base64

end AgeCrypt
