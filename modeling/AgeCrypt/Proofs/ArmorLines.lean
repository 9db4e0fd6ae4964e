import AgeCrypt.Armor.Line
import AgeCrypt.Proofs.Texts

/-!
# What a line of an armored file means

A line behind the beginning marks the end of the file, or it holds bytes: those whose Base64 it is, with padding or without
(`Armor.Spells`), while no line before it was short. Main statements: these are exactly the lines that are accepted
(`Armor.readLine_eq_ending_iff`, `Armor.readLine_eq_data_iff`), whichever way they end (`Armor.stripEnding_of_isEnding`).
-/

namespace AgeCrypt

namespace Base64

/-- How many signs complete the last group of four characters. -/
def missing (characters : Nat) : Nat := (4 - characters % 4) % 4

theorem paddable_encode_iff {bs : Bytes} {padding : Nat} :
    paddable (encode bs).length padding = true ↔ padding ≤ missing (encode bs).length := by
  have length := length_encode bs
  have possible : (encode bs).length % 4 ≠ 1 := by omega
  simp only [paddable, missing, Bool.or_eq_true, Bool.and_eq_true, decide_eq_true_eq]
  omega

/-- What is decoded with padding is Base64 with all the padding that there may be, some of it or none. -/
theorem decodePadded_eq_some_iff {cs : List Char} {bs : Bytes} : decodePadded cs = some bs ↔
    ∃ padding, padding ≤ missing (encode bs).length ∧ cs = encode bs ++ List.replicate padding '=' := by
  constructor
  · intro decodes
    simp only [decodePadded] at decodes
    split at decodes
    · rename_i conditions
      obtain ⟨signs, few⟩ := Bool.and_eq_true_iff.1 conditions
      have body := decode_eq_some_iff.1 decodes
      rw [body] at few
      refine ⟨_, paddable_encode_iff.1 few, ?_⟩
      have padding : cs.dropWhile (· != '=') = List.replicate (cs.dropWhile (· != '=')).length '=' := by
        refine List.eq_replicate_iff.2 ⟨rfl, fun c member => ?_⟩
        exact eq_of_beq (List.all_eq_true.1 signs c member)
      rw [← padding, ← body, List.takeWhile_append_dropWhile]
    · cases decodes
  · rintro ⟨padding, few, rfl⟩
    have others : ∀ c ∈ encode bs, (c != '=') = true :=
      fun c member => bne_iff_ne.2 (visible_of_mem_encode member).2.2.2
    have body : (encode bs ++ List.replicate padding '=').takeWhile (· != '=') = encode bs := by
      rw [List.takeWhile_append_of_pos others]
      simp
    have signs : (encode bs ++ List.replicate padding '=').dropWhile (· != '=') = List.replicate padding '=' := by
      rw [List.dropWhile_append_of_pos others]
      cases padding <;> simp [List.replicate_succ]
    rw [decodePadded, body, signs, List.length_replicate, paddable_encode_iff.2 few]
    simpa using decode_eq_some_iff.2 rfl

end Base64

namespace Armor
variable {b : UInt8} {bs line text part ending : Bytes} {short : Bool}

/-- The end of a line: a newline, with a carriage return before it or not. -/
def IsEnding (ending : Bytes) : Prop := ending = [10] ∨ ending = [13, 10]

theorem dropLastIf_of_not_mem (inside : b ∉ bs) : dropLastIf b bs = bs := by
  rw [dropLastIf, if_neg]
  intro ends
  exact inside (List.mem_of_getLast? ends)

theorem dropLastIf_concat (b : UInt8) (bs : Bytes) : dropLastIf b (bs ++ [b]) = bs := by
  rw [dropLastIf, if_pos List.getLast?_concat, List.dropLast_concat]

theorem dropLastIf_cases (b : UInt8) (bs : Bytes) : bs = dropLastIf b bs ∨ bs = dropLastIf b bs ++ [b] := by
  unfold dropLastIf
  by_cases ends : bs.getLast? = some b
  · rw [if_pos ends]
    obtain ⟨front, rfl⟩ := List.getLast?_eq_some_iff.1 ends
    exact .inr (by rw [List.dropLast_concat])
  · rw [if_neg ends]
    exact .inl rfl

/-- The end of a line is stripped from it. -/
theorem stripEnding_of_isEnding (inside : 13 ∉ text) (ends : IsEnding ending) : stripEnding (text ++ ending) = text := by
  rcases ends with rfl | rfl
  · rw [stripEnding, dropLastIf_concat, dropLastIf_of_not_mem inside]
  · rw [stripEnding, show text ++ [13, 10] = text ++ [13] ++ [10] by simp, dropLastIf_concat, dropLastIf_concat]

/-- What is stripped from a line that ends with a newline is its end. -/
theorem exists_isEnding (line : Bytes) :
    ∃ ending, IsEnding ending ∧ line ++ [10] = stripEnding (line ++ [10]) ++ ending := by
  rw [stripEnding, dropLastIf_concat]
  rcases dropLastIf_cases 13 line with same | same
  · exact ⟨[10], .inl rfl, by rw [← same]⟩
  · refine ⟨[13, 10], .inr rfl, ?_⟩
    conv => lhs; rw [same]
    simp

/-- What is stripped from a line without a newline is a carriage return, if it ends with one. -/
theorem stripEnding_cases_of_not_mem (inside : 10 ∉ line) : line = stripEnding line ∨ line = stripEnding line ++ [13] := by
  rw [stripEnding, dropLastIf_of_not_mem inside]
  exact dropLastIf_cases 13 line

/-- A text that is the Base64 of some bytes in at most 64 columns. Its padding may be there, in part or completely. -/
def Spells (text part : Bytes) : Prop :=
  ∃ padding, padding ≤ Base64.missing (encodeLine part).length ∧
    text = encodeLine part ++ List.replicate padding 61 ∧ text.length ≤ 64

theorem length_encodeLine (part : Bytes) : (encodeLine part).length = (4 * part.length + 2) / 3 := by
  rw [encodeLine, length_charBytes, Base64.length_encode]

/-- Full lines are the longest ones. -/
theorem Spells.length_le (spells : Spells text part) : part.length ≤ lineBytes := by
  obtain ⟨padding, _, rfl, few⟩ := spells
  rw [List.length_append, length_encodeLine] at few
  simp only [lineBytes]
  omega

theorem spells_encodeLine (le : part.length ≤ lineBytes) : Spells (encodeLine part) part := by
  refine ⟨0, Nat.zero_le _, by simp, ?_⟩
  rw [length_encodeLine]
  simp only [lineBytes] at le
  omega

/-- The characters of Base64 are visible, and none of them is a hyphen or a sign for padding. -/
theorem visible_of_mem_encodeLine (member : b ∈ encodeLine part) : 32 < b.toNat ∧ b.toNat < 127 ∧ b ≠ 45 ∧ b ≠ 61 := by
  obtain ⟨c, inside, rfl⟩ := List.mem_map.1 member
  obtain ⟨low, high, hyphen, padding⟩ := Base64.visible_of_mem_encode inside
  have value : (UInt8.ofNat c.toNat).toNat = c.toNat := by
    rw [UInt8.toNat_ofNat', Nat.mod_eq_of_lt (by omega)]
  refine ⟨by omega, by omega, ?_, ?_⟩
  · intro same
    rw [same] at value
    exact hyphen (Char.toNat_inj.1 value.symm)
  · intro same
    rw [same] at value
    exact padding (Char.toNat_inj.1 value.symm)

theorem Spells.visible (spells : Spells text part) (member : b ∈ text) : 32 < b.toNat ∧ b.toNat < 127 ∧ b ≠ 45 := by
  obtain ⟨padding, _, rfl, _⟩ := spells
  rcases List.mem_append.1 member with member | member
  · obtain ⟨low, high, hyphen, _⟩ := visible_of_mem_encodeLine member
    exact ⟨low, high, hyphen⟩
  · obtain rfl := List.eq_of_mem_replicate member
    decide

theorem Spells.not_mem (spells : Spells text part) (control : b.toNat ≤ 32) : b ∉ text :=
  fun member => absurd (spells.visible member).1 (Nat.not_lt.2 control)

/-- The text of a line decodes to the bytes that it spells. -/
theorem spells_iff : Spells text part ↔ text.length ≤ columns ∧ Base64.decodePadded (byteChars text) = some part := by
  have signs : ∀ padding, charBytes (List.replicate padding '=') = List.replicate padding 61 :=
    fun padding => List.map_replicate
  rw [Base64.decodePadded_eq_some_iff]
  unfold Spells encodeLine
  rw [length_charBytes]
  constructor
  · rintro ⟨padding, few, rfl, short⟩
    refine ⟨short, padding, few, ?_⟩
    rw [← signs, charBytes, charBytes, ← List.map_append]
    refine byteChars_charBytes fun c member => ?_
    rcases List.mem_append.1 member with member | member
    · exact Nat.le_trans (Base64.visible_of_mem_encode member).2.1 (by decide)
    · obtain rfl := List.eq_of_mem_replicate member
      decide
  · rintro ⟨short, padding, few, same⟩
    refine ⟨padding, few, ?_, short⟩
    have bytes := congrArg charBytes same
    rw [charBytes_byteChars, charBytes, List.map_append] at bytes
    rw [bytes, ← signs]
    rfl

theorem readLine_eq_ending_iff {raw : Bytes} : readLine short raw = .ok .ending ↔ stripEnding raw = endMarker := by
  simp only [readLine]
  constructor
  · intro reads
    split at reads
    · cases reads
    split at reads
    · assumption
    split at reads
    · cases reads
    split at reads
    · cases reads
    split at reads <;> cases reads
  · intro ends
    have some : raw ≠ [] := by
      rintro rfl
      exact absurd ends (by decide)
    simp only [if_neg some, if_pos ends]

theorem readLine_eq_data_iff {raw : Bytes} :
    readLine short raw = .ok (.data part) ↔ raw ≠ [] ∧ short = false ∧ Spells (stripEnding raw) part := by
  simp only [readLine]
  constructor
  · intro reads
    split at reads
    · cases reads
    rename_i some
    split at reads
    · cases reads
    split at reads
    · cases reads
    rename_i inner
    split at reads
    · cases reads
    rename_i short
    split at reads
    · cases reads
    rename_i bytes decodes
    cases reads
    refine ⟨some, ?_, spells_iff.2 ⟨Nat.le_of_not_lt short, decodes⟩⟩
    simpa using (not_or.1 inner).1
  · rintro ⟨some, rfl, spells⟩
    obtain ⟨fits, decodes⟩ := spells_iff.1 spells
    have other : stripEnding raw ≠ endMarker := by
      intro same
      have member : (45 : UInt8) ∈ stripEnding raw := same ▸ List.mem_cons_self
      exact (spells.visible member).2.2 rfl
    have first : (stripEnding raw).head? ≠ Option.some 45 := by
      intro begins
      exact (spells.visible (List.mem_of_mem_head? begins)).2.2 rfl
    simp only [if_neg some, if_neg other, Bool.false_eq_true, false_or, if_neg first, if_neg (Nat.not_lt.2 fits), decodes]

end Armor

end AgeCrypt
