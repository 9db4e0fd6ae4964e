import Mathlib
import AgeCrypt.Proofs.Bech32Checksum
import AgeCrypt.Proofs.Texts

/-!
# Bech32 strings and their one spelling

A string is all lower or all upper case, so it is the spelling of its parts converted to one of the two cases
(`LetterCase.convert`). Reading it into its parts undoes this and nothing else (`readParts_eq_ok_iff`), and of the digits
that are read, the checksum and the filling of the last digit are determined by the rest.

Main statement: apart from the case, decoding accepts exactly what encoding gives (`decode_eq_ok_iff_encode`).
-/

namespace AgeCrypt.Bech32

namespace LetterCase

def convert : LetterCase → Char → Char
  | lower => Char.toLower
  | upper => Char.toUpper

/-- Whether the letters whose case this is, if there are any, are of the given case. -/
def Allows (k : LetterCase) : Option LetterCase → Prop
  | none => True
  | some found => found = k

/-- Characters whose letters are all of the given case. -/
def Fits (k : LetterCase) (cs : List Char) : Prop := ∀ c ∈ cs, k.convert c = c

theorem exists_allows (sofar : Option LetterCase) : ∃ k : LetterCase, k.Allows sofar := by
  cases sofar with
  | none => exact ⟨lower, trivial⟩
  | some found => exact ⟨found, rfl⟩

theorem convert_convert (k l : LetterCase) (c : Char) : k.convert (l.convert c) = k.convert c := by
  cases k <;> cases l <;> simp [convert]

theorem map_convert_map (k l : LetterCase) (cs : List Char) :
    (cs.map l.convert).map k.convert = cs.map k.convert := by
  rw [List.map_map]
  exact List.map_congr_left fun c _ => convert_convert k l c

theorem fits_map (k : LetterCase) (cs : List Char) : k.Fits (cs.map k.convert) := by
  intro c member
  obtain ⟨d, _, rfl⟩ := List.mem_map.1 member
  exact convert_convert k k d

theorem Fits.map_eq {k : LetterCase} {cs : List Char} (fits : k.Fits cs) : cs.map k.convert = cs := by
  rw [List.map_congr_left fits, List.map_id']

/-- Characters keep their case exactly if it is that of a letter or they are none. -/
theorem convert_eq_self_iff {k : LetterCase} {c : Char} : k.convert c = c ↔ k.Allows (caseOf? c) := by
  by_cases low : c.isLower
  · have high := Char.not_isUpper_of_isLower low
    rw [caseOf?, if_pos low]
    cases k with
    | lower => simp [convert, Allows, Char.toLower_eq_of_not_isUpper high]
    | upper =>
      simp only [convert, Allows, reduceCtorEq, iff_false]
      intro same
      have none := Char.isLower_toUpper_eq_false c
      simp [same, low] at none
  · rw [caseOf?, if_neg low]
    by_cases high : c.isUpper
    · rw [if_pos high]
      cases k with
      | upper => simp [convert, Allows, Char.toUpper_eq_of_not_isLower low]
      | lower =>
        simp only [convert, Allows, reduceCtorEq, iff_false]
        intro same
        have none := Char.isUpper_toLower_eq_false c
        simp [same, high] at none
    · rw [if_neg high]
      cases k with
      | lower => simp [convert, Allows, Char.toLower_eq_of_not_isUpper high]
      | upper => simp [convert, Allows, Char.toUpper_eq_of_not_isLower low]

end LetterCase

open LetterCase

/-- One more character leaves those cases possible that fit it. -/
theorem joinCase_allows {k : LetterCase} {sofar : Option LetterCase} {c : Char} :
    (∃ next, joinCase sofar c = .ok next ∧ k.Allows next) ↔ k.Allows sofar ∧ k.convert c = c := by
  rw [convert_eq_self_iff]
  unfold joinCase
  generalize caseOf? c = case?
  cases case? with
  | none => simp [Allows]
  | some new =>
    cases sofar with
    | none => simp [Allows]
    | some old =>
      by_cases same : new = old
      · simp [Allows, same]
      · simp only [if_neg same, reduceCtorEq, false_and, exists_false, Allows, false_iff]
        rintro ⟨rfl, rfl⟩
        exact same rfl

/-- Characters that a human-readable part may have. -/
def IsVisible (cs : List Char) : Prop := ∀ c ∈ cs, 33 ≤ c.toNat ∧ c.toNat ≤ 126

/-- A human-readable part, all of whose letters are of the given case. -/
structure IsPart (k : LetterCase) (hrp : List Char) : Prop where
  some : hrp ≠ []
  short : hrp.length ≤ 83
  visible : IsVisible hrp
  fits : k.Fits hrp

theorem checkLetters_cons {sofar all : Option LetterCase} {c : Char} {cs : List Char} :
    checkLetters sofar (c :: cs) = .ok all ↔ (33 ≤ c.toNat ∧ c.toNat ≤ 126) ∧
      ∃ next, joinCase sofar c = .ok next ∧ checkLetters next cs = .ok all := by
  rw [checkLetters]
  by_cases visible : 33 ≤ c.toNat ∧ c.toNat ≤ 126
  · rw [if_neg (by omega)]
    cases joinCase sofar c <;> simp [visible]
  · rw [if_pos (by omega)]
    simp [visible]

theorem checkLetters_allows {k : LetterCase} {sofar : Option LetterCase} {cs : List Char} :
    (∃ all, checkLetters sofar cs = .ok all ∧ k.Allows all) ↔ k.Allows sofar ∧ IsVisible cs ∧ k.Fits cs := by
  induction cs generalizing sofar with
  | nil => simp [checkLetters, IsVisible, Fits]
  | cons c cs ih =>
    simp only [checkLetters_cons]
    constructor
    · rintro ⟨all, ⟨visible, next, joined, checked⟩, allowed⟩
      obtain ⟨possible, others, fits⟩ := ih.1 ⟨all, checked, allowed⟩
      obtain ⟨before, same⟩ := joinCase_allows.1 ⟨next, joined, possible⟩
      exact ⟨before, List.forall_mem_cons.2 ⟨visible, others⟩, List.forall_mem_cons.2 ⟨same, fits⟩⟩
    · rintro ⟨before, visible, fits⟩
      obtain ⟨first, others⟩ := List.forall_mem_cons.1 visible
      obtain ⟨same, fits⟩ := List.forall_mem_cons.1 fits
      obtain ⟨next, joined, possible⟩ := joinCase_allows.2 ⟨before, same⟩
      obtain ⟨all, checked, allowed⟩ := ih.2 ⟨possible, others, fits⟩
      exact ⟨all, ⟨first, next, joined, checked⟩, allowed⟩

/-- A part has been checked once its letters have been, as all of its characters are ASCII. -/
theorem checkPart_allows {k : LetterCase} {hrp : List Char} :
    (∃ all, checkPart hrp = .ok all ∧ k.Allows all) ↔ IsPart k hrp := by
  have read : ∀ ascii : ∀ c ∈ hrp, c.toNat ≤ 127, utf8 (String.ofList hrp) = charBytes hrp := by
    intro ascii
    rw [utf8_of_ascii (by rwa [String.toList_ofList]), String.toList_ofList]
  constructor
  · rintro ⟨all, checked, allowed⟩
    by_cases range : (utf8 (String.ofList hrp)).length = 0 ∨ 83 < (utf8 (String.ofList hrp)).length
    · rw [checkPart, if_pos range] at checked
      simp at checked
    · rw [checkPart, if_neg range] at checked
      obtain ⟨-, visible, fits⟩ := checkLetters_allows.1 ⟨all, checked, allowed⟩
      have ascii : ∀ c ∈ hrp, c.toNat ≤ 127 := by
        have small : ∀ b ∈ utf8 (String.ofList hrp), b.toNat ≤ 127 := by
          intro b member
          have low := (visible _ (List.mem_map_of_mem member)).2
          rw [toNat_ofNat_toNat] at low
          omega
        have chars := ascii_of_utf8 small
        rwa [String.toList_ofList] at chars
      rw [read ascii, byteChars_charBytes ascii] at visible fits
      rw [read ascii, length_charBytes] at range
      exact ⟨fun none => range (.inl (by rw [none, List.length_nil])), by omega, visible, fits⟩
  · intro part
    have ascii : ∀ c ∈ hrp, c.toNat ≤ 127 := fun c member => Nat.le_succ_of_le (part.visible c member).2
    have positive : hrp.length ≠ 0 := fun none => part.some (List.length_eq_zero_iff.1 none)
    have short := part.short
    rw [checkPart, read ascii, byteChars_charBytes ascii, length_charBytes, if_neg (by omega)]
    exact checkLetters_allows.2 ⟨trivial, part.visible, part.fits⟩

theorem visible_convert (k : LetterCase) {c : Char} (visible : 33 ≤ c.toNat ∧ c.toNat ≤ 126) :
    33 ≤ (k.convert c).toNat ∧ (k.convert c).toNat ≤ 126 := by
  have all : ∀ k ∈ [lower, upper], ∀ n : Fin 127, 33 ≤ n.val →
      33 ≤ (k.convert (Char.ofNat n)).toNat ∧ (k.convert (Char.ofNat n)).toNat ≤ 126 := by decide
  have converted := all k (by cases k <;> simp) ⟨c.toNat, Nat.lt_succ_of_le visible.2⟩ visible.1
  rwa [Char.ofNat_toNat] at converted

/-- A part remains one in the other case. -/
theorem IsPart.convert {k : LetterCase} {hrp : List Char} (part : IsPart k hrp) (l : LetterCase) :
    IsPart l (hrp.map l.convert) := by
  refine ⟨by simpa using part.some, by simpa using part.short, ?_, fits_map l hrp⟩
  intro c member
  obtain ⟨d, inside, rfl⟩ := List.mem_map.1 member
  exact visible_convert l (part.visible d inside)

/-- A digit is read from its symbol in either case. -/
theorem convert_symbol (k : LetterCase) {d : Nat} (small : d < 32) :
    digit? (k.convert (symbol d)) = some d ∧ (k.convert (symbol d)).toNat ≤ 127 := by
  have all : ∀ k ∈ [lower, upper], ∀ d : Fin 32,
      digit? (k.convert (symbol d)) = some d.val ∧ (k.convert (symbol d)).toNat ≤ 127 := by decide
  exact all k (by cases k <;> simp) ⟨d, small⟩

theorem symbol_of_digit? {c : Char} {d : Nat} (reads : digit? c = some d) : symbol d = c.toLower ∧ d < 32 := by
  have size : alphabet.length = 32 := by decide
  obtain ⟨same, lt⟩ := getD_of_idxOf? reads
  exact ⟨same, size ▸ lt⟩

theorem readDigits_cons {sofar : Option LetterCase} {c : Char} {cs : List Char} {ds : List Nat} :
    readDigits sofar (c :: cs) = .ok ds ↔ c.toNat ≤ 127 ∧
      ∃ next, joinCase sofar c = .ok next ∧ ∃ d, digit? c = some d ∧ ∃ rest, readDigits next cs = .ok rest ∧
        ds = d :: rest := by
  rw [readDigits]
  by_cases ascii : c.toNat ≤ 127
  · rw [if_neg (by omega)]
    cases joinCase sofar c with
    | error e => simp
    | ok next =>
      cases digit? c with
      | none => simp
      | some d =>
        cases follow : readDigits next cs with
        | error e => simp [follow, Except.map]
        | ok rest => simp [follow, Except.map, ascii, eq_comm]
  · rw [if_pos (by omega)]
    simp [ascii]

/-- Digits are read from their symbols, all in one case. -/
theorem readDigits_eq_ok_iff {sofar : Option LetterCase} {cs : List Char} {ds : List Nat} :
    readDigits sofar cs = .ok ds ↔
      ∃ k : LetterCase, k.Allows sofar ∧ cs = (ds.map symbol).map k.convert ∧ ∀ d ∈ ds, d < 32 := by
  induction cs generalizing sofar ds with
  | nil =>
    have allowed := exists_allows sofar
    cases ds <;> simp [readDigits, allowed]
  | cons c cs ih =>
    rw [readDigits_cons]
    constructor
    · rintro ⟨-, next, joined, d, reads, rest, follow, rfl⟩
      obtain ⟨k, allowed, rfl, small⟩ := ih.1 follow
      obtain ⟨possible, fits⟩ := joinCase_allows.1 ⟨next, joined, allowed⟩
      obtain ⟨same, lt⟩ := symbol_of_digit? reads
      refine ⟨k, possible, ?_, List.forall_mem_cons.2 ⟨lt, small⟩⟩
      have first : k.convert (symbol d) = c := by
        rw [same, ← fits]
        exact (convert_convert k .lower _).trans (convert_convert k k c)
      rw [List.map_cons, List.map_cons, first]
    · rintro ⟨k, allowed, same, small⟩
      cases ds with
      | nil => simp at same
      | cons d ds =>
        obtain ⟨rfl, rfl⟩ := List.cons.inj same
        obtain ⟨lt, small⟩ := List.forall_mem_cons.1 small
        obtain ⟨reads, ascii⟩ := convert_symbol k lt
        obtain ⟨next, joined, possible⟩ := joinCase_allows.2 ⟨allowed, convert_convert k k (symbol d)⟩
        exact ⟨ascii, next, joined, d, reads, ds, ih.2 ⟨k, possible, rfl, small⟩, rfl⟩

/-! ## Taking a string apart -/

theorem splitAtSeparator_eq_some_iff {cs hrp rest : List Char} :
    splitAtSeparator cs = some (hrp, rest) ↔ cs = hrp ++ '1' :: rest ∧ '1' ∉ rest := by
  have parts : cs = (cs.reverse.dropWhile (· != '1')).reverse ++ (cs.reverse.takeWhile (· != '1')).reverse := by
    rw [← List.reverse_append, List.takeWhile_append_dropWhile, List.reverse_reverse]
  rw [splitAtSeparator, List.span_eq_takeWhile_dropWhile]
  constructor
  · intro split
    cases before : cs.reverse.dropWhile (· != '1') with
    | nil => simp [before] at split
    | cons c before' =>
      have separator : c = '1' := by
        have first := List.head?_dropWhile_not (· != '1') cs.reverse
        simpa [before] using first
      simp only [before, Option.some.injEq, Prod.mk.injEq] at split
      obtain ⟨rfl, rfl⟩ := split
      refine ⟨?_, ?_⟩
      · rw [before, separator] at parts
        simpa using parts
      · intro member
        have other := List.mem_takeWhile_imp (List.mem_reverse.1 member)
        simp at other
  · rintro ⟨rfl, absent⟩
    have other : ∀ c ∈ rest.reverse, (c != '1') = true := by
      intro c member
      have inside := List.mem_reverse.1 member
      simp only [bne_iff_ne, ne_eq]
      rintro rfl
      exact absent inside
    rw [List.reverse_append, List.reverse_cons, List.append_assoc, List.singleton_append,
      List.takeWhile_append_of_pos other, List.dropWhile_append_of_pos other]
    simp

/-- The separator is no symbol. -/
theorem separator_not_mem {k : LetterCase} {ds : List Nat} (small : ∀ d ∈ ds, d < 32) :
    '1' ∉ (ds.map symbol).map k.convert := by
  intro member
  rw [List.map_map] at member
  obtain ⟨d, inside, same⟩ := List.mem_map.1 member
  have reads := (convert_symbol k (small d inside)).1
  rw [show k.convert (symbol d) = '1' from same] at reads
  simp [show digit? '1' = none by decide] at reads

/-- The characters of a string in lower case. -/
def spelling (hrp : List Char) (ds : List Nat) : List Char := hrp ++ '1' :: ds.map symbol

theorem map_convert_spelling (k : LetterCase) (hrp : List Char) (ds : List Nat) :
    (spelling hrp ds).map k.convert = hrp.map k.convert ++ '1' :: (ds.map symbol).map k.convert := by
  have separator : k.convert '1' = '1' := by cases k <;> decide
  rw [spelling, List.map_append, List.map_cons, separator]

theorem readParts_eq_ok_iff_split {cs hrp : List Char} {ds : List Nat} :
    readParts cs = .ok (hrp, ds) ↔ ∃ before behind, splitAtSeparator cs = some (before, behind) ∧
      ∃ letterCase, checkPart before = .ok letterCase ∧ readDigits letterCase behind = .ok ds ∧
        hrp = before.map Char.toLower := by
  unfold readParts
  cases splitAtSeparator cs with
  | none => simp
  | some parts =>
    obtain ⟨before, behind⟩ := parts
    cases checked : checkPart before with
    | error e => simp [checked]
    | ok letterCase =>
      cases follow : readDigits letterCase behind with
      | error e => simp [checked, follow, Except.map]
      | ok rest => simp [checked, follow, Except.map, eq_comm, and_comm]

/-- A string is read into the parts of which it is the spelling, in one of the two cases. -/
theorem readParts_eq_ok_iff {cs hrp : List Char} {ds : List Nat} :
    readParts cs = .ok (hrp, ds) ↔
      ∃ k : LetterCase, IsPart .lower hrp ∧ cs = (spelling hrp ds).map k.convert ∧ ∀ d ∈ ds, d < 32 := by
  rw [readParts_eq_ok_iff_split]
  constructor
  · rintro ⟨before, behind, split, letterCase, checked, follow, rfl⟩
    obtain ⟨rfl, -⟩ := splitAtSeparator_eq_some_iff.1 split
    obtain ⟨k, allowed, rfl, small⟩ := readDigits_eq_ok_iff.1 follow
    have part := checkPart_allows.1 ⟨letterCase, checked, allowed⟩
    refine ⟨k, part.convert .lower, ?_, small⟩
    rw [map_convert_spelling]
    change _ = (before.map (LetterCase.convert .lower)).map k.convert ++ _
    rw [map_convert_map, part.fits.map_eq]
  · rintro ⟨k, part, rfl, small⟩
    obtain ⟨letterCase, checked, allowed⟩ := checkPart_allows.2 (part.convert k)
    refine ⟨hrp.map k.convert, (ds.map symbol).map k.convert, ?_, letterCase, checked, ?_, ?_⟩
    · exact splitAtSeparator_eq_some_iff.2 ⟨map_convert_spelling k hrp ds, separator_not_mem small⟩
    · exact readDigits_eq_ok_iff.2 ⟨k, allowed, rfl, small⟩
    · exact ((map_convert_map .lower k hrp).trans part.fits.map_eq).symm

theorem ascii_spelling (k : LetterCase) {hrp : List Char} (part : IsPart .lower hrp) {ds : List Nat}
    (small : ∀ d ∈ ds, d < 32) : ∀ c ∈ (spelling hrp ds).map k.convert, c.toNat ≤ 127 := by
  intro c member
  rw [map_convert_spelling] at member
  rcases List.mem_append.1 member with member | member
  · exact Nat.le_succ_of_le ((part.convert k).visible c member).2
  · rcases List.mem_cons.1 member with rfl | member
    · decide
    · rw [List.map_map] at member
      obtain ⟨d, inside, rfl⟩ := List.mem_map.1 member
      exact (convert_symbol k (small d inside)).2

theorem utf8ByteSize_of_spelling {k : LetterCase} {s : String} {hrp : List Char} {ds : List Nat}
    (part : IsPart .lower hrp) (small : ∀ d ∈ ds, d < 32) (same : s.toList = (spelling hrp ds).map k.convert) :
    s.utf8ByteSize = (spelling hrp ds).length := by
  have ascii := ascii_spelling k part small
  rw [← same] at ascii
  rw [utf8ByteSize_of_ascii ascii, same, List.length_map]

/-- The digits of bytes and their checksum. -/
def checked (hrp : List Char) (data : Bytes) : List Nat := digits 5 data ++ checksum hrp (digits 5 data)

theorem assemble_eq_spelling (hrp : List Char) (data : Bytes) : assemble hrp data = spelling hrp (checked hrp data) := rfl

theorem lt_of_mem_checked {hrp : List Char} {data : Bytes} : ∀ d ∈ checked hrp data, d < 32 := by
  intro d member
  rcases List.mem_append.1 member with member | member
  · exact lt_of_mem_digits member
  · exact lt_of_mem_checksum member

theorem length_assemble (hrp : List Char) (data : Bytes) :
    (assemble hrp data).length = hrp.length + 1 + (8 * data.length + 4) / 5 + 6 := by
  have digits : (digits 5 data).length = (8 * data.length + 4) / 5 := by
    rw [digits, List.length_map, Base64.length_pieces (by decide), length_byteBits]
    rfl
  rw [assemble_eq_spelling, spelling, checked, List.length_append, List.length_cons, List.length_map, List.length_append,
    digits, length_checksum]
  omega

/-- What is assembled is in lower case if the part is. -/
theorem fits_assemble {hrp : List Char} (part : IsPart .lower hrp) (data : Bytes) : Fits .lower (assemble hrp data) := by
  have all : ∀ d : Fin 32, (symbol d).toLower = symbol d := by decide
  intro c member
  rw [assemble_eq_spelling, spelling] at member
  rcases List.mem_append.1 member with member | member
  · exact part.fits c member
  · rcases List.mem_cons.1 member with rfl | member
    · decide
    · obtain ⟨d, inside, rfl⟩ := List.mem_map.1 member
      exact all ⟨d, lt_of_mem_checked d inside⟩

/-- The digits that are accepted are those of some bytes and their checksum. -/
theorem accepts_iff {hrp : List Char} {ds : List Nat} (small : ∀ d ∈ ds, d < 32) {data : Bytes} :
    6 ≤ ds.length ∧ remainder (expand hrp ++ ds) = target ∧ ofDigits? 5 (ds.take (ds.length - 6)) = some data ↔
      ds = checked hrp data := by
  constructor
  · rintro ⟨long, right, spells⟩
    have six : (ds.drop (ds.length - 6)).length = 6 := by
      rw [List.length_drop]
      omega
    have front := (ofDigits?_eq_some_iff (by decide) (by decide) fun d member =>
      small d (List.mem_of_mem_take member)).1 spells
    rw [← List.take_append_drop (ds.length - 6) ds, remainder_eq_target_iff six fun d member =>
      small d (List.mem_of_mem_drop member), front] at right
    rw [checked, ← right, ← front, List.take_append_drop]
  · rintro rfl
    have length : (checked hrp data).length = (digits 5 data).length + 6 := by
      rw [checked, List.length_append, length_checksum]
    refine ⟨by omega, ?_, ?_⟩
    · exact (remainder_eq_target_iff (length_checksum hrp _) fun d member => lt_of_mem_checksum member).2 rfl
    · rw [length, Nat.add_sub_cancel, checked, List.take_left]
      exact ofDigits?_digits (by decide) (by decide) data

/-- A text is decoded exactly if it is short enough and its digits, once they are read, are accepted. -/
theorem decode_eq_ok_iff_accepted {s hrp : String} {data : Bytes} : decode s = .ok (hrp, data) ↔
    s.utf8ByteSize ≤ maxLength ∧ ∃ ds, readParts s.toList = .ok (hrp.toList, ds) ∧ 6 ≤ ds.length ∧
      remainder (expand hrp.toList ++ ds) = target ∧ ofDigits? 5 (ds.take (ds.length - 6)) = some data := by
  have differ : target ≠ otherTarget := by decide
  constructor
  · intro decodes
    unfold decode at decodes
    split at decodes
    · cases decodes
    rename_i short
    split at decodes
    · cases decodes
    rename_i before ds reads
    split at decodes
    · cases decodes
    rename_i long
    dsimp only at decodes
    split at decodes
    · cases decodes
    split at decodes
    · cases decodes
    rename_i right
    split at decodes
    · cases decodes
    rename_i found spells
    obtain ⟨rfl, rfl⟩ := Prod.mk.inj (Except.ok.inj decodes)
    rw [String.toList_ofList]
    exact ⟨Nat.le_of_not_lt short, ds, reads, Nat.le_of_not_lt long, not_not.1 right, spells⟩
  · rintro ⟨short, ds, reads, long, right, spells⟩
    simp only [decode, if_neg (Nat.not_lt.2 short), reads, if_neg (Nat.not_lt.2 long), right, if_neg differ, spells,
      ne_eq, not_true_eq_false, if_false, String.ofList_toList]

/-- What is decoded is the assembled text in one of the two cases. -/
theorem decode_eq_ok_iff {s hrp : String} {data : Bytes} : decode s = .ok (hrp, data) ↔
    IsPart .lower hrp.toList ∧ (assemble hrp.toList data).length ≤ maxLength ∧
      ∃ k : LetterCase, s.toList = (assemble hrp.toList data).map k.convert := by
  rw [decode_eq_ok_iff_accepted]
  constructor
  · rintro ⟨short, ds, reads, accepted⟩
    obtain ⟨k, part, same, small⟩ := readParts_eq_ok_iff.1 reads
    obtain rfl := (accepts_iff small).1 accepted
    rw [utf8ByteSize_of_spelling part small same] at short
    exact ⟨part, short, k, same⟩
  · rintro ⟨part, short, k, same⟩
    have small := @lt_of_mem_checked hrp.toList data
    refine ⟨?_, checked hrp.toList data, readParts_eq_ok_iff.2 ⟨k, part, same, small⟩, (accepts_iff small).2 rfl⟩
    rwa [utf8ByteSize_of_spelling part small same]

/-- A part in either case has an encoding, unless that is too long. -/
theorem encode_eq_ok_iff {hrp t : String} {data : Bytes} : encode hrp data = .ok t ↔
    (∃ k : LetterCase, IsPart k hrp.toList) ∧ (assemble hrp.toLower.toList data).length ≤ maxLength ∧
      t.toList = assemble hrp.toLower.toList data := by
  have valid : (∃ k : LetterCase, IsPart k hrp.toList) ↔ ∃ all, checkPart hrp.toList = .ok all := by
    simp only [← checkPart_allows]
    constructor
    · rintro ⟨_, all, checks, _⟩
      exact ⟨all, checks⟩
    · rintro ⟨all, checks⟩
      obtain ⟨k, allowed⟩ := exists_allows all
      exact ⟨k, all, checks, allowed⟩
  have lower : hrp.toLower.toList = hrp.toList.map Char.toLower := String.toList_map
  rw [valid, encode, lower]
  cases checkPart hrp.toList with
  | error e => simp
  | ok all =>
    by_cases long : maxLength < (assemble (hrp.toList.map Char.toLower) data).length
    · simp [if_pos long, Nat.not_le.2 long]
    · simp only [if_neg long, Except.ok.injEq, exists_eq', true_and, Nat.not_lt.1 long]
      rw [← String.toList_inj, String.toList_ofList, eq_comm]

/-- The bytes that have an encoding under a part are those that leave it short enough. -/
theorem exists_encode_iff {hrp : String} {data : Bytes} : (∃ t, encode hrp data = .ok t) ↔
    (∃ k : LetterCase, IsPart k hrp.toList) ∧ hrp.length + 1 + (8 * data.length + 4) / 5 + 6 ≤ maxLength := by
  have length : (assemble hrp.toLower.toList data).length = hrp.length + 1 + (8 * data.length + 4) / 5 + 6 := by
    rw [length_assemble, String.toLower, String.toList_map, List.length_map, String.length_toList]
  simp only [encode_eq_ok_iff, length]
  constructor
  · rintro ⟨_, part, short, _⟩
    exact ⟨part, short⟩
  · rintro ⟨part, short⟩
    exact ⟨String.ofList (assemble hrp.toLower.toList data), part, short, String.toList_ofList⟩

theorem isUpper_eq_false_iff {c : Char} : c.isUpper = false ↔ c.toLower = c := by
  constructor
  · intro other
    exact Char.toLower_eq_of_not_isUpper (Bool.eq_false_iff.1 other)
  · intro same
    rw [← same]
    exact Char.isUpper_toLower_eq_false c

theorem toLower_eq_self {s : String} (fits : Fits .lower s.toList) : s.toLower = s := by
  rw [← String.toList_inj, String.toLower, String.toList_map]
  exact fits.map_eq

theorem IsPart.toLower {k : LetterCase} {hrp : String} (part : IsPart k hrp.toList) : IsPart .lower hrp.toLower.toList := by
  rw [String.toLower, String.toList_map]
  exact part.convert .lower

/-- The two spellings of a text in lower case. -/
theorem exists_convert_iff {s t : String} (fits : Fits .lower t.toList) :
    (∃ k : LetterCase, s.toList = t.toList.map k.convert) ↔ s = t ∨ s = t.toUpper := by
  have upper : t.toUpper.toList = t.toList.map Char.toUpper := String.toList_map
  constructor
  · rintro ⟨k, same⟩
    cases k with
    | lower =>
      rw [fits.map_eq] at same
      exact .inl (String.toList_inj.1 same)
    | upper => exact .inr (String.toList_inj.1 (same.trans upper.symm))
  · rintro (rfl | rfl)
    · exact ⟨.lower, fits.map_eq.symm⟩
    · exact ⟨.upper, upper⟩

/-- A text is decoded to a part without letters of upper case and to bytes exactly if it is their encoding, in lower or in
    upper case, and what is encoded is decoded to the part in lower case and the bytes. -/
theorem decode_eq_ok_iff_encode :
    (∀ (s hrp : String) (data : Bytes), decode s = .ok (hrp, data) ↔
      (∀ c ∈ hrp.toList, c.isUpper = false) ∧
        ∃ t, encode hrp data = .ok t ∧ t.length ≤ 90 ∧ (s = t ∨ s = t.toUpper)) ∧
      ∀ (hrp t : String) (data : Bytes), encode hrp data = .ok t → decode t = .ok (hrp.toLower, data) := by
  constructor
  · intro s hrp data
    rw [decode_eq_ok_iff]
    constructor
    · rintro ⟨part, short, k, same⟩
      have text : (String.ofList (assemble hrp.toList data)).toList = assemble hrp.toList data := String.toList_ofList
      refine ⟨fun c member => isUpper_eq_false_iff.2 (part.fits c member), String.ofList (assemble hrp.toList data),
        encode_eq_ok_iff.2 ⟨⟨.lower, part⟩, ?_⟩, ?_, ?_⟩
      · rw [toLower_eq_self part.fits]
        exact ⟨short, text⟩
      · rw [String.length_ofList]
        exact short
      · rw [← exists_convert_iff (by rw [text]; exact fits_assemble part data), text]
        exact ⟨k, same⟩
    · rintro ⟨other, t, encoded, -, cased⟩
      have fits : Fits .lower hrp.toList := fun c member => isUpper_eq_false_iff.1 (other c member)
      obtain ⟨⟨_, valid⟩, short, same⟩ := encode_eq_ok_iff.1 encoded
      have part := valid.toLower
      rw [toLower_eq_self fits] at short same part
      refine ⟨part, short, ?_⟩
      rwa [← same, exists_convert_iff (by rw [same]; exact fits_assemble part data)]
  · intro hrp t data encoded
    obtain ⟨⟨_, valid⟩, short, same⟩ := encode_eq_ok_iff.1 encoded
    have part := valid.toLower
    exact decode_eq_ok_iff.2 ⟨part, short, .lower, same.trans (fits_assemble part data).map_eq.symm⟩

/-- The 32 bytes of a key, which end within a digit, and its text in either case. -/
theorem decode_eq_ok_iff_encode_age :
    let data : Bytes := [95, 134, 98, 101, 138, 20, 70, 227, 170, 11, 111, 198, 60, 132, 152, 137,
      102, 201, 159, 95, 163, 252, 113, 2, 201, 167, 59, 6, 144, 250, 144, 117]
    let text := "age1t7rxyev2z3rw82stdlrrepyc39nvn86l5078zqkf5uasdy86jp6svpy7pa"
    encode "age" data = .ok text ∧ decode text = .ok ("age", data) ∧ decode text.toUpper = .ok ("age", data) := by
  intro data text
  obtain ⟨decodes_iff, decodes⟩ := decode_eq_ok_iff_encode
  have encoded : encode "age" data = .ok text := by decide +kernel
  have lower : "age".toLower = "age" := by decide +kernel
  have decoded := decodes "age" text data encoded
  rw [lower] at decoded
  have other : ∀ c ∈ "age".toList, c.isUpper = false := by
    intro c member
    rw [show "age".toList = ['a', 'g', 'e'] from rfl] at member
    fin_cases member <;> rfl
  exact ⟨encoded, decoded, (decodes_iff text.toUpper "age" data).2 ⟨other, text, encoded, by decide +kernel, .inr rfl⟩⟩

end AgeCrypt.Bech32
