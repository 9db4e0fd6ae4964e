import AgeCrypt.Proofs.Numerals

/-!
# Texts of ASCII characters

The UTF-8 bytes of an ASCII text are its characters, one byte each (`utf8_of_ascii`), and a text of ASCII bytes is one
(`ascii_of_utf8`). Base64 uses visible characters only, none of which is a hyphen or a sign of padding
(`Base64.visible_of_mem_encode`), and the length of a line of Base64 tells how many bytes it holds
(`Base64.length_encode`).
-/

namespace AgeCrypt

/-- A text of printable ASCII characters, as a line is. -/
def IsPrintable (cs : List Char) : Prop := ∀ c ∈ cs, 32 ≤ c.toNat ∧ c.toNat ≤ 126

theorem isPrintable_of_all {cs : List Char} (all : (cs.all fun c => 32 ≤ c.toNat ∧ c.toNat ≤ 126) = true) : IsPrintable cs :=
  fun c member => of_decide_eq_true (List.all_eq_true.1 all c member)

theorem IsPrintable.append {cs ds : List Char} (first : IsPrintable cs) (second : IsPrintable ds) :
    IsPrintable (cs ++ ds) := by
  intro c member
  rcases List.mem_append.1 member with member | member
  · exact first c member
  · exact second c member

theorem utf8_eq_flatMap (s : String) : utf8 s = s.toList.flatMap String.utf8EncodeChar := by
  have bytes : s.toByteArray = s.toList.utf8Encode := by
    rw [← String.toByteArray_ofList, String.ofList_toList]
  rw [utf8, bytes, List.utf8Encode]
  simp

/-- The bytes of an ASCII text are its characters. -/
theorem utf8_of_ascii {s : String} (ascii : ∀ c ∈ s.toList, c.toNat ≤ 127) : utf8 s = charBytes s.toList := by
  rw [utf8_eq_flatMap]
  generalize s.toList = cs at *
  induction cs with
  | nil => rfl
  | cons c cs ih =>
    have first : String.utf8EncodeChar c = [UInt8.ofNat c.toNat] := by
      unfold String.utf8EncodeChar
      exact if_pos (ascii c List.mem_cons_self)
    rw [List.flatMap_cons, first, ih fun d member => ascii d (List.mem_cons_of_mem c member)]
    rfl

/-- A character that is not ASCII has a byte above 127. -/
theorem exists_high_of_not_ascii {c : Char} (wide : 127 < c.toNat) :
    ∃ b ∈ String.utf8EncodeChar c, 128 ≤ b.toNat := by
  have marked : ∀ n : Nat, 128 ≤ (UInt8.ofNat (n % 64 + 128)).toNat := by
    intro n
    rw [UInt8.toNat_ofNat', Nat.mod_eq_of_lt (by omega)]
    exact Nat.le_add_left 128 (n % 64)
  have narrow : ¬ c.val.toNat ≤ 127 := Nat.not_le.2 wide
  -- In each longer encoding the second byte is one that continues it.
  unfold String.utf8EncodeChar
  simp only [if_neg narrow]
  split
  · exact ⟨_, List.mem_cons_of_mem _ List.mem_cons_self, marked _⟩
  · split
    · exact ⟨_, List.mem_cons_of_mem _ List.mem_cons_self, marked _⟩
    · exact ⟨_, List.mem_cons_of_mem _ List.mem_cons_self, marked _⟩

/-- A text all of whose bytes are ASCII has no other characters. -/
theorem ascii_of_utf8 {s : String} (small : ∀ b ∈ utf8 s, b.toNat ≤ 127) : ∀ c ∈ s.toList, c.toNat ≤ 127 := by
  intro c inside
  refine Nat.le_of_not_lt fun wide => ?_
  obtain ⟨b, encoded, high⟩ := exists_high_of_not_ascii wide
  rw [utf8_eq_flatMap] at small
  have low := small b (List.mem_flatMap.2 ⟨c, inside, encoded⟩)
  omega

theorem utf8ByteSize_of_ascii {s : String} (ascii : ∀ c ∈ s.toList, c.toNat ≤ 127) :
    s.utf8ByteSize = s.toList.length := by
  have length := congrArg List.length (utf8_of_ascii ascii)
  rw [length_charBytes] at length
  exact length

theorem utf8_of_printable {s : String} (printable : IsPrintable s.toList) : utf8 s = charBytes s.toList :=
  utf8_of_ascii fun c member => Nat.le_trans (printable c member).2 (by decide)

/-- A byte below 32, such as a newline, is not one of a printable text. -/
theorem not_mem_charBytes {cs : List Char} (printable : IsPrintable cs) {b : UInt8} (control : b.toNat < 32) :
    b ∉ charBytes cs := by
  intro member
  obtain ⟨c, inside, rfl⟩ := List.mem_map.1 member
  obtain ⟨low, high⟩ := printable c inside
  rw [UInt8.toNat_ofNat', Nat.mod_eq_of_lt (by omega)] at control
  omega

theorem byteChars_charBytes {cs : List Char} (ascii : ∀ c ∈ cs, c.toNat ≤ 127) : byteChars (charBytes cs) = cs := by
  induction cs with
  | nil => rfl
  | cons c cs ih =>
    have small := ascii c List.mem_cons_self
    have first : Char.ofNat (UInt8.ofNat c.toNat).toNat = c := by
      rw [UInt8.toNat_ofNat', Nat.mod_eq_of_lt (by omega), Char.ofNat_toNat]
    have rest := ih fun d member => ascii d (List.mem_cons_of_mem c member)
    simp only [byteChars, charBytes, List.map_cons] at rest ⊢
    rw [first, rest]

theorem toNat_ofNat_toNat (b : UInt8) : (Char.ofNat b.toNat).toNat = b.toNat := by
  have valid : b.toNat.isValidChar := .inl (Nat.lt_trans b.toNat_lt (by decide))
  rw [Char.ofNat, dif_pos valid]
  rfl

theorem charBytes_byteChars (bs : Bytes) : charBytes (byteChars bs) = bs := by
  have same : ∀ b : UInt8, UInt8.ofNat (Char.ofNat b.toNat).toNat = b := by
    intro b
    rw [toNat_ofNat_toNat, UInt8.ofNat_toNat]
  rw [charBytes, byteChars, List.map_map]
  exact (List.map_congr_left fun b _ => same b).trans (List.map_id bs)

namespace Base64

theorem length_pieces {α : Type _} {n : Nat} (pos : 0 < n) (l : List α) :
    (pieces n l).length = (l.length + n - 1) / n := by
  fun_induction pieces n l with
  | case1 l stop =>
    obtain rfl := stop.resolve_left (Nat.ne_of_gt pos)
    exact (Nat.div_eq_of_lt (by simp; omega)).symm
  | case2 l more ih =>
    obtain ⟨_, some⟩ := not_or.1 more
    have positive : l.length ≠ 0 := fun none => some (List.length_eq_zero_iff.1 none)
    rw [List.length_cons, ih, List.length_drop]
    by_cases short : l.length ≤ n
    · rw [Nat.sub_eq_zero_of_le short, Nat.zero_add, Nat.div_eq_of_lt (Nat.sub_lt pos Nat.one_pos)]
      exact (Nat.div_eq_of_lt_le (by omega) (by omega)).symm
    · rw [show l.length + n - 1 = (l.length - n + n - 1) + n by omega, Nat.add_div_right _ pos]

/-- A line of Base64 is as long as its bytes need. -/
theorem length_encode (bs : Bytes) : (encode bs).length = (4 * bs.length + 2) / 3 := by
  rw [encode, List.length_map, digits, List.length_map, length_pieces (by decide), length_byteBits]
  omega

theorem mem_alphabet_of_mem_encode {c : Char} {bs : Bytes} (member : c ∈ encode bs) : c ∈ alphabet := by
  obtain ⟨d, digit, rfl⟩ := List.mem_map.1 member
  have lt : d < alphabet.length := Nat.lt_of_lt_of_eq (lt_of_mem_digits digit) (by decide +kernel)
  rw [symbol, List.getD_eq_getElem?_getD, List.getElem?_eq_getElem lt, Option.getD_some]
  exact List.getElem_mem lt

theorem visible_of_mem_encode {c : Char} {bs : Bytes} (member : c ∈ encode bs) :
    33 ≤ c.toNat ∧ c.toNat ≤ 126 ∧ c ≠ '-' ∧ c ≠ '=' := by
  have all : alphabet.all (fun c => 33 ≤ c.toNat ∧ c.toNat ≤ 126 ∧ c ≠ '-' ∧ c ≠ '=') = true := by decide +kernel
  exact of_decide_eq_true (List.all_eq_true.1 all c (mem_alphabet_of_mem_encode member))

theorem isPrintable_encode (bs : Bytes) : IsPrintable (encode bs) := by
  intro c member
  obtain ⟨low, high, _⟩ := visible_of_mem_encode member
  exact ⟨Nat.le_of_succ_le low, high⟩

theorem toList_encodeText (bs : Bytes) : (encodeText bs).toList = encode bs := String.toList_ofList

theorem utf8ByteSize_encodeText (bs : Bytes) : (encodeText bs).utf8ByteSize = (4 * bs.length + 2) / 3 := by
  have ascii : ∀ c ∈ (encodeText bs).toList, c.toNat ≤ 127 := by
    rw [toList_encodeText]
    exact fun c member => Nat.le_succ_of_le (visible_of_mem_encode member).2.1
  rw [utf8ByteSize_of_ascii ascii, toList_encodeText, length_encode]

theorem decode_encodeText (bs : Bytes) : decode (encodeText bs).toList = some bs :=
  decode_eq_some_iff.2 (toList_encodeText bs)

/-- A text that decodes is the Base64 of its bytes. -/
theorem eq_encodeText_of_decode {s : String} {bs : Bytes} (decodes : decode s.toList = some bs) : s = encodeText bs := by
  rw [encodeText, ← decode_eq_some_iff.1 decodes, String.ofList_toList]

theorem decodeBlock_eq_some_iff {n : Nat} {s : String} {block : Block n} :
    (decode s.toList).bind (Block.ofBytes? n) = some block ↔ s = encodeText block.bytes := by
  constructor
  · intro decoded
    obtain ⟨bs, decodes, whole⟩ := Option.bind_eq_some_iff.1 decoded
    obtain rfl := Block.ofBytes?_eq_some_iff.1 whole
    exact eq_encodeText_of_decode decodes
  · rintro rfl
    rw [decode_encodeText, Option.bind_some, Block.ofBytes?_bytes]

end Base64

end AgeCrypt
