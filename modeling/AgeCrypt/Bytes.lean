/-!
# Byte strings

Byte strings are lists of bytes. This module holds what all other modules need of them: byte strings of
one fixed length (`Block`), numbers as bytes in either order, cutting into pieces, exclusive or, and the
bytes of a text.
-/

namespace AgeCrypt

abbrev Bytes := List UInt8

/-- A byte string of one fixed length. -/
structure Block (n : Nat) where
  bytes : Bytes
  length_bytes : bytes.length = n
deriving DecidableEq

attribute [simp] Block.length_bytes

namespace Block

/-- The byte string as a block, if it has the length of one. -/
def ofBytes? (n : Nat) (bs : Bytes) : Option (Block n) :=
  if h : bs.length = n then some ⟨bs, h⟩ else none

theorem ofBytes?_eq_some_iff {n : Nat} {bs : Bytes} {b : Block n} : ofBytes? n bs = some b ↔ b.bytes = bs := by
  obtain ⟨cs, h⟩ := b
  unfold ofBytes?
  split
  · simp [eq_comm]
  · rename_i differ
    simp only [reduceCtorEq, false_iff]
    rintro rfl
    exact differ h

theorem ofBytes?_bytes {n : Nat} (b : Block n) : ofBytes? n b.bytes = some b :=
  ofBytes?_eq_some_iff.2 rfl

def zeros (n : Nat) : Block n := ⟨List.replicate n 0, by simp⟩

end Block

/-- The lowest `width` bytes of a number, lowest first. -/
def littleEndian : (width : Nat) → Nat → Bytes
  | 0, _ => []
  | width + 1, n => UInt8.ofNat n :: littleEndian width (n / 256)

def ofLittleEndian : Bytes → Nat
  | [] => 0
  | b :: bs => b.toNat + 256 * ofLittleEndian bs

/-- The lowest `width` bytes of a number, highest first. -/
def bigEndian (width n : Nat) : Bytes := (littleEndian width n).reverse

@[simp] theorem length_littleEndian (width n : Nat) : (littleEndian width n).length = width := by
  induction width generalizing n with
  | zero => rfl
  | succ width ih => simp [littleEndian, ih]

@[simp] theorem length_bigEndian (width n : Nat) : (bigEndian width n).length = width := by
  simp [bigEndian]

/-- Cuts a list into pieces of `n` elements, the last of which may be shorter. -/
def pieces {α : Type _} (n : Nat) (l : List α) : List (List α) :=
  if n = 0 ∨ l = [] then [] else l.take n :: pieces n (l.drop n)
termination_by l.length
decreasing_by
  rename_i h
  have : l.length ≠ 0 := fun e => h (.inr (List.length_eq_zero_iff.1 e))
  simp only [List.length_drop]
  omega

theorem flatten_pieces {α : Type _} {n : Nat} (pos : 0 < n) (l : List α) : (pieces n l).flatten = l := by
  fun_induction pieces n l with
  | case1 l h =>
    rcases h with h | h
    · omega
    · simp [h]
  | case2 l h ih => simp [ih]

theorem length_of_mem_pieces {α : Type _} {n : Nat} {l part : List α} (mem : part ∈ pieces n l) :
    part.length ≤ n := by
  fun_induction pieces n l with
  | case1 => simp at mem
  | case2 l more ih =>
    rcases List.mem_cons.1 mem with rfl | mem
    · simp only [List.length_take]
      omega
    · exact ih mem

/-- The exclusive or of two byte strings, as long as the shorter one. -/
def xorBytes (a b : Bytes) : Bytes := List.zipWith (· ^^^ ·) a b

/-- Combining twice with the same bytes changes nothing. -/
theorem xorBytes_xorBytes {a b : Bytes} (le : a.length ≤ b.length) : xorBytes (xorBytes a b) b = a := by
  induction a generalizing b with
  | nil => simp [xorBytes]
  | cons x a ih =>
    cases b with
    | nil => simp at le
    | cons y b =>
      have rest := ih (b := b) (by simpa using le)
      simp only [xorBytes, List.zipWith_cons_cons, List.cons.injEq] at rest ⊢
      exact ⟨by rw [UInt8.xor_assoc, UInt8.xor_self, UInt8.xor_zero], rest⟩

@[simp] theorem length_xorBytes (a b : Bytes) : (xorBytes a b).length = min a.length b.length := by
  simp [xorBytes]

@[simp] theorem size_appendBytes (before : Array UInt8) (bs : Bytes) :
    (before ++ bs).size = before.size + bs.length := by
  rw [← Array.length_toList, Array.toList_appendList, List.length_append, Array.length_toList]

def utf8 (s : String) : Bytes := s.toByteArray.data.toList

def ofUtf8? (bs : Bytes) : Option String := String.fromUTF8? ⟨bs.toArray⟩

theorem ofUtf8?_eq_some_iff {bs : Bytes} {s : String} : ofUtf8? bs = some s ↔ utf8 s = bs := by
  unfold ofUtf8? utf8 String.fromUTF8?
  constructor
  · intro h
    split at h
    · injection h with h
      subst h
      rfl
    · simp at h
  · rintro rfl
    have same : (⟨s.toByteArray.data.toList.toArray⟩ : ByteArray) = s.toByteArray := by simp
    rw [same, dif_pos s.isValidUTF8]
    rfl

theorem ofUtf8?_utf8 (s : String) : ofUtf8? (utf8 s) = some s := ofUtf8?_eq_some_iff.2 rfl

/-- The bytes of characters below 256, one each. -/
def charBytes (cs : List Char) : Bytes := cs.map fun c => UInt8.ofNat c.toNat

/-- One character below 256 for each byte. -/
def byteChars (bs : Bytes) : List Char := bs.map fun b => Char.ofNat b.toNat

@[simp] theorem length_charBytes (cs : List Char) : (charBytes cs).length = cs.length := by simp [charBytes]

@[simp] theorem length_byteChars (bs : Bytes) : (byteChars bs).length = bs.length := by simp [byteChars]

end AgeCrypt
