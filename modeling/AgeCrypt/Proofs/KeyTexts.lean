import AgeCrypt.Proofs.Bech32Codec
import AgeCrypt.X25519

/-!
# Texts of keys

A key has one encoding, and its bytes are read from that in lower and in upper case and from nothing else
(`parseKey_eq_ok_iff`). Main statement: every key has a text and is read back from it, a text that is read as a key is that
of the key up to case, and none is read both as a secret and as a public key (`parse_text`).
-/

namespace AgeCrypt.X25519

open Bech32

theorem isPart_secretPart : IsPart .lower secretPart.toList :=
  checkPart_allows.1 ⟨some .lower, by decide, rfl⟩

theorem isPart_publicPart : IsPart .lower publicPart.toList :=
  checkPart_allows.1 ⟨some .lower, by decide, rfl⟩

/-- A key is read from what decodes to its part and its bytes. -/
theorem parseKey_eq_ok_iff_decode {part s : String} {block : Block 32} :
    parseKey part s = .ok block ↔ decode s = .ok (part, block.bytes) := by
  unfold parseKey
  cases decode s with
  | error e => simp
  | ok parts =>
    obtain ⟨hrp, data⟩ := parts
    by_cases other : hrp = part
    · have whole := @Block.ofBytes?_eq_some_iff 32 data block
      cases held : Block.ofBytes? 32 data with
      | none => simpa [other, held, eq_comm] using whole
      | some found => simpa [other, held, eq_comm] using whole
    · simp [other]

/-- There is room for the 52 digits of a key and its checksum. -/
theorem length_assemble_block {part : String} (short : part.length ≤ 31) (block : Block 32) :
    (assemble part.toList block.bytes).length ≤ maxLength := by
  rw [length_assemble, block.length_bytes, String.length_toList, maxLength]
  omega

section Parts

variable {part : String} (valid : IsPart .lower part.toList) (short : part.length ≤ 31)
include valid

theorem fits_keyText (block : Block 32) : LetterCase.Fits .lower (keyText part block).toList := by
  rw [keyText, String.toList_ofList]
  exact fits_assemble valid block.bytes

include short

theorem encode_block (block : Block 32) : encode part block.bytes = .ok (keyText part block) := by
  rw [encode_eq_ok_iff, toLower_eq_self valid.fits]
  exact ⟨⟨.lower, valid⟩, length_assemble_block short block, String.toList_ofList⟩

/-- A key is read from its encoding, in either case. -/
theorem parseKey_eq_ok_iff {s : String} {block : Block 32} :
    parseKey part s = .ok block ↔ s = keyText part block ∨ s = (keyText part block).toUpper := by
  rw [parseKey_eq_ok_iff_decode, decode_eq_ok_iff, ← exists_convert_iff (fits_keyText valid block), keyText,
    String.toList_ofList]
  constructor
  · rintro ⟨_, _, spelled⟩
    exact spelled
  · intro spelled
    exact ⟨valid, length_assemble_block short block, spelled⟩

end Parts

theorem toUpper_toUpper (s : String) : s.toUpper.toUpper = s.toUpper := by
  simp [String.toUpper, ← String.toList_inj, String.toList_map]

theorem toLower_toUpper (s : String) : s.toUpper.toLower = s.toLower := by
  simp [String.toLower, String.toUpper, ← String.toList_inj, String.toList_map]

namespace SecretKey

theorem text_eq (key : SecretKey) : key.text = (keyText secretPart key.block).toUpper := by
  rw [← String.toList_inj, text, String.toList_ofList, String.toUpper, String.toList_map]

theorem parse_eq_parseKey {s : String} {key : SecretKey} : parse s = .ok key ↔ parseKey secretPart s = .ok key.block := by
  obtain ⟨block⟩ := key
  rw [parse]
  cases parseKey secretPart s <;> simp [Except.map]

/-- A secret key is read from its text and from that in lower case. -/
theorem parse_eq_ok_iff {s : String} {key : SecretKey} :
    parse s = .ok key ↔ s = keyText secretPart key.block ∨ s = key.text := by
  rw [parse_eq_parseKey, parseKey_eq_ok_iff isPart_secretPart (by decide), text_eq]

end SecretKey

namespace PublicKey

theorem parse_eq_parseKey {s : String} {key : PublicKey} : parse s = .ok key ↔ parseKey publicPart s = .ok key.block := by
  obtain ⟨block⟩ := key
  rw [parse]
  cases parseKey publicPart s <;> simp [Except.map]

/-- A public key is read from its text and from that in upper case. -/
theorem parse_eq_ok_iff {s : String} {key : PublicKey} : parse s = .ok key ↔ s = key.text ∨ s = key.text.toUpper := by
  rw [parse_eq_parseKey, parseKey_eq_ok_iff isPart_publicPart (by decide), text]

end PublicKey

/-- No text is read both as a secret and as a public key, as it has one human-readable part. -/
theorem not_parse_both (s : String) (secret : SecretKey) (key : PublicKey) :
    ¬ (SecretKey.parse s = .ok secret ∧ PublicKey.parse s = .ok key) := by
  rw [SecretKey.parse_eq_parseKey, PublicKey.parse_eq_parseKey, parseKey_eq_ok_iff_decode, parseKey_eq_ok_iff_decode]
  rintro ⟨first, second⟩
  rw [first] at second
  simp [secretPart, publicPart] at second

/-- Each secret key has an encoding, in upper case its text, and is read from this text, and each public key has one, its
    text, and is read from it. Up to case no other text is read as the key, and none is read as keys of both kinds. -/
theorem parse_text :
    (∀ key : SecretKey, (encode secretPart key.block.bytes).map String.toUpper = .ok key.text ∧
      SecretKey.parse key.text = .ok key) ∧
      (∀ key : PublicKey, encode publicPart key.block.bytes = .ok key.text ∧ PublicKey.parse key.text = .ok key) ∧
      (∀ (s : String) (key : SecretKey), SecretKey.parse s = .ok key → key.text = s.toUpper) ∧
      (∀ (s : String) (key : PublicKey), PublicKey.parse s = .ok key → key.text = s.toLower) ∧
      ∀ (s : String) (secret : SecretKey) (key : PublicKey),
        ¬ (SecretKey.parse s = .ok secret ∧ PublicKey.parse s = .ok key) := by
  refine ⟨?_, ?_, ?_, ?_, not_parse_both⟩
  · intro key
    rw [encode_block isPart_secretPart (by decide), SecretKey.text_eq]
    exact ⟨rfl, SecretKey.parse_eq_ok_iff.2 (.inr key.text_eq.symm)⟩
  · intro key
    exact ⟨encode_block isPart_publicPart (by decide) key.block, PublicKey.parse_eq_ok_iff.2 (.inl rfl)⟩
  · intro s key reads
    rcases SecretKey.parse_eq_ok_iff.1 reads with rfl | rfl
    · exact key.text_eq
    · rw [key.text_eq, toUpper_toUpper]
  · intro s key reads
    have lower : key.text.toLower = key.text := toLower_eq_self (fits_keyText isPart_publicPart key.block)
    rcases PublicKey.parse_eq_ok_iff.1 reads with rfl | rfl
    · exact lower.symm
    · rw [toLower_toUpper, lower]

theorem parse_text_lower_case :
    let key : SecretKey := ⟨⟨[64, 11, 239, 29, 128, 54, 247, 38, 100, 240, 183, 165, 166, 44, 252, 149,
      110, 208, 118, 92, 100, 19, 135, 99, 111, 83, 78, 140, 184, 30, 80, 88], rfl⟩⟩
    let s := "age-secret-key-1gq9778vqxmmjve8sk7j6vt8uj4hdqajuvsfcwcm02d8gewq72pvq2y5j33"
    SecretKey.parse s = .ok key ∧ key.text = "AGE-SECRET-KEY-1GQ9778VQXMMJVE8SK7J6VT8UJ4HDQAJUVSFCWCM02D8GEWQ72PVQ2Y5J33" := by
  intro key s
  have reads : SecretKey.parse s = .ok key ∧
      s.toUpper = "AGE-SECRET-KEY-1GQ9778VQXMMJVE8SK7J6VT8UJ4HDQAJUVSFCWCM02D8GEWQ72PVQ2Y5J33" := by
    decide +kernel
  obtain ⟨_, _, text, _⟩ := parse_text
  exact ⟨reads.1, (text s key reads.1).trans reads.2⟩

end AgeCrypt.X25519
