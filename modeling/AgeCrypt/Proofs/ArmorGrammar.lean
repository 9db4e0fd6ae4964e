import AgeCrypt.Proofs.ArmorLines
import AgeCrypt.Proofs.ReadingOut
import AgeCrypt.Proofs.Unarmoring

/-!
# The grammar of armored files

Whether a file is armored is decided by its first line (`Armor.IsArmored`). An armored file is well formed if it is some
whitespace, the mark of the beginning, lines of Base64, the mark of the end and some whitespace again
(`Armor.Envelope`). Main statement: an armor reader hands out a file that is not armored as it is, and it reaches the
end of an armored one exactly if that is well formed, with the bytes of its lines (`ArmorReader.readsOut_iff`).
-/

namespace AgeCrypt

open Buffered (takeLine)

namespace Armor
variable {bs data text line rest rest' : Bytes} {short : Bool}

/-- The first line of a file, through its newline, of which at most 1026 bytes are looked at. -/
def firstLine (bs : Bytes) : Bytes := Buffered.throughNewline (bs.take 1026)

/-- An armored file begins with the mark of the beginning, or its first line is whitespace. -/
def IsArmored (bs : Bytes) : Prop :=
  beginMarker <+: firstLine bs ∨ (firstLine bs ≠ [] ∧ isWhitespace (firstLine bs) = true)

instance (bs : Bytes) : Decidable (IsArmored bs) := inferInstanceAs (Decidable (_ ∨ _))

/-- Lines of whitespace, of at most 1024 bytes in total. -/
def Leading (bs : Bytes) : Prop :=
  ∃ lines : List Bytes, (∀ line ∈ lines, isWhitespace line = true ∧ (10 : UInt8) ∉ line) ∧
    bs = lines.flatMap (· ++ [10]) ∧ bs.length ≤ 1024

/-- Lines of Base64 and the bytes that they hold. All lines but the last one hold 48 bytes. -/
inductive Body : Bytes → Bytes → Prop
  | none : Body [] []
  | last {text ending part : Bytes} (spells : Spells text part) (ends : IsEnding ending) : Body (text ++ ending) part
  | more {text ending part rest parts : Bytes} (spells : Spells text part) (ends : IsEnding ending)
      (full : part.length = 48) (behind : Body rest parts) : Body (text ++ ending ++ rest) (part ++ parts)

/-- The mark of the end in a line of its own, with at most 1024 bytes of whitespace behind it, or without a newline at
    the end of the file. -/
inductive Closing : Bytes → Prop
  | line {ending trailing : Bytes} (ends : IsEnding ending) (blank : isWhitespace trailing = true)
      (few : trailing.length ≤ 1024) : Closing (endMarker ++ ending ++ trailing)
  | bare {ending : Bytes} (ends : ending = [] ∨ ending = [13]) : Closing (endMarker ++ ending)

/-- A well-formed armored file and the bytes that it holds. -/
def Envelope (bs data : Bytes) : Prop :=
  ∃ leading ending body closing, bs = leading ++ beginMarker ++ ending ++ body ++ closing ∧
    Leading leading ∧ IsEnding ending ∧ Body body data ∧ Closing closing

/-- A line that is short enough is taken with its end. -/
theorem takeLine_of_isEnding {ending : Bytes} {limit : Nat} (inside : 10 ∉ text) (fits : text.length + 1 < limit)
    (ends : IsEnding ending) (rest : Bytes) :
    takeLine none (some limit) (text ++ ending ++ rest) = .ok (text ++ ending, rest) := by
  rcases ends with rfl | rfl
  · rw [List.append_assoc]
    refine Buffered.takeLine_of_line none inside ?_ rest
    rintro limit ⟨⟩
    omega
  · have inside' : 10 ∉ text ++ [13] := by simp [inside]
    have taken := @Buffered.takeLine_of_line none (some limit) (text ++ [13]) inside' ?_ rest
    · simpa [Buffered.newline] using taken
    · rintro limit ⟨⟩
      simpa using fits

/-- Without a newline, the end of the bytes ends a line. -/
theorem takeLine_of_not_mem {limit : Nat} (inside : 10 ∉ text) (fits : text.length ≤ limit) :
    takeLine none (some limit) text = .ok (text, []) := by
  have whole : Buffered.firstLine (some limit) text = text := by
    show Buffered.throughNewline (text.take limit) = text
    rw [List.take_of_length_le fits]
    exact Buffered.throughNewline_of_not_mem inside
  rw [Buffered.takeLine_of_not_isOpen (.inl rfl), whole, List.drop_length]

/-- A line with a short content is whole, or nothing is behind it. -/
theorem isEnding_of_takeLine {limit : Nat} (taken : takeLine none (some limit) bs = .ok (line, rest))
    (short : (stripEnding line).length + 1 < limit) :
    (∃ ending, IsEnding ending ∧ line = stripEnding line ++ ending) ∨
    (rest = [] ∧ ∃ ending, (ending = [] ∨ ending = [13]) ∧ line = stripEnding line ++ ending) := by
  rcases Buffered.cases_of_takeLine taken with ⟨inside, rfl, _⟩ | ⟨inside, ended⟩
  · exact .inl (exists_isEnding inside)
  · have cut : ∃ ending, (ending = [] ∨ ending = [13]) ∧ line = stripEnding line ++ ending := by
      rcases stripEnding_cases_of_not_mem inside with same | same
      · exact ⟨[], .inl rfl, by simpa using same⟩
      · exact ⟨[13], .inr rfl, same⟩
    refine .inr ⟨ended.resolve_right fun full => ?_, cut⟩
    obtain ⟨ending, ends, same⟩ := cut
    have size := congrArg List.length same
    rw [List.length_append] at size
    rcases ends with rfl | rfl
    · simp only [List.length_nil] at size
      omega
    · simp only [List.length_singleton] at size
      omega

theorem trailing?_eq_none_iff : trailing? none rest = none ↔ isWhitespace rest = true ∧ rest.length ≤ 1024 := by
  unfold trailing? fault? maxWhitespace
  by_cases few : rest.length < 1024 + 1
  · rw [if_pos few, Option.none_or]
    by_cases blank : isWhitespace rest = true
    · have short : ¬ 1024 < rest.length := by omega
      simp only [blank, if_neg short]
      simp
      omega
    · simp [blank]
  · have long : (rest.take (1024 + 1)).length = 1025 := List.length_take_of_le (Nat.le_of_not_lt few)
    have many : ¬ rest.length ≤ 1024 := by omega
    rw [if_neg few, long]
    by_cases blank : isWhitespace (rest.take (1024 + 1)) = true
    · simp [blank, many]
    · simp [blank, many]

/-- Behind its last line of data, a well-formed file ends. -/
theorem decodeFrom_of_closing (short : Bool) (closing : Closing text) : decodeFrom none short text = ([], none) := by
  cases closing with
  | @line ending trailing ends blank few =>
    have taken := @takeLine_of_isEnding endMarker ending ArmorReader.lineLimit (by decide) (by decide) ends trailing
    have stripped : stripEnding (endMarker ++ ending) = endMarker := stripEnding_of_isEnding (by decide) ends
    rw [decodeFrom_of_ending taken (readLine_eq_ending_iff.2 stripped), trailing?_eq_none_iff.2 ⟨blank, few⟩]
  | @bare ending ends =>
    have ended : takeLine none (some ArmorReader.lineLimit) (endMarker ++ ending) = .ok (endMarker ++ ending, []) := by
      rcases ends with rfl | rfl
      · exact takeLine_of_not_mem (by decide) (by decide)
      · exact takeLine_of_not_mem (by decide) (by decide)
    have stripped : stripEnding (endMarker ++ ending) = endMarker := by
      rcases ends with rfl | rfl <;> decide
    rw [decodeFrom_of_ending ended (readLine_eq_ending_iff.2 stripped), trailing?_eq_none_iff.2 ⟨rfl, Nat.zero_le _⟩]

/-- What ends a file is the mark of the end with whitespace behind it. -/
theorem closing_of_takeLine (taken : takeLine none (some ArmorReader.lineLimit) bs = .ok (line, rest))
    (marks : stripEnding line = endMarker) (clean : trailing? none rest = none) : Closing bs := by
  obtain ⟨blank, few⟩ := trailing?_eq_none_iff.1 clean
  have short : (stripEnding line).length + 1 < ArmorReader.lineLimit := by
    rw [marks]
    decide
  rw [← Buffered.append_of_takeLine taken]
  rcases isEnding_of_takeLine taken short with ⟨ending, ends, same⟩ | ⟨rfl, ending, ends, same⟩
  · rw [same, marks]
    exact .line ends blank few
  · rw [same, marks, List.append_nil]
    exact .bare ends

/-- A line of data is not cut off. -/
theorem Spells.fits {part : Bytes} (spells : Spells text part) : text.length + 1 < ArmorReader.lineLimit := by
  obtain ⟨_, _, _, few⟩ := spells
  simp only [ArmorReader.lineLimit, columns]
  omega

/-- A file that ends behind a line of data is not complete. -/
theorem decodeFrom_nil (short : Bool) : decodeFrom none short [] = ([], some (.armor .missingEnd)) :=
  decodeFrom_of_error (takeLine_of_not_mem (by simp) (by decide)) rfl

/-- A line of data is decoded, and what is behind it unless it is short. -/
theorem decodeFrom_of_spells {ending part : Bytes} (spells : Spells text part) (ends : IsEnding ending) (rest : Bytes) :
    decodeFrom none false (text ++ ending ++ rest) =
      (part ++ (decodeFrom none (part.length < lineBytes) rest).1,
        (decodeFrom none (part.length < lineBytes) rest).2) := by
  have taken := takeLine_of_isEnding (spells.not_mem (by decide)) spells.fits ends rest
  have stripped := stripEnding_of_isEnding (spells.not_mem (by decide)) ends
  have some : text ++ ending ≠ [] := by
    rcases ends with rfl | rfl <;> simp
  have holds : readLine false (text ++ ending) = .ok (.data part) :=
    readLine_eq_data_iff.2 ⟨some, rfl, by rwa [stripped]⟩
  rw [decodeFrom_of_data taken holds, Bool.false_or]

/-- Lines of a well-formed file are decoded to the bytes that they hold. -/
theorem decodeFrom_of_body {closing : Bytes} (body : Body text data) (closes : Closing closing) :
    decodeFrom none false (text ++ closing) = (data, none) := by
  induction body with
  | none => exact decodeFrom_of_closing false closes
  | last spells ends => rw [decodeFrom_of_spells spells ends, decodeFrom_of_closing _ closes, List.append_nil]
  | @more text ending part rest parts spells ends full _ ih =>
    have whole : decide (part.length < lineBytes) = false := by simp [full, lineBytes]
    rw [List.append_assoc _ rest, decodeFrom_of_spells spells ends, whole, ih]

/-- Lines that are decoded up to the end are those of the grammar, and behind a short line there are none. -/
theorem body_of_decodeFrom (decodes : decodeFrom none short bs = (data, none)) :
    ∃ text closing, bs = text ++ closing ∧ Body text data ∧ Closing closing ∧
      (short = true → text = [] ∧ data = []) := by
  induction size : bs.length using Nat.strongRecOn generalizing short bs data with | _ n ih => ?_
  obtain ⟨line, rest, taken⟩ : ∃ line rest, takeLine none (some ArmorReader.lineLimit) bs = .ok (line, rest) :=
    ⟨_, _, Buffered.takeLine_of_not_isOpen (.inl rfl)⟩
  have cut := Buffered.append_of_takeLine taken
  cases reads : readLine short line with
  | error e =>
    rw [decodeFrom_of_error taken reads] at decodes
    cases decodes
  | ok content =>
    cases content with
    | ending =>
      rw [decodeFrom_of_ending taken reads] at decodes
      obtain ⟨rfl, clean⟩ := Prod.mk.inj decodes
      have closing := closing_of_takeLine taken (readLine_eq_ending_iff.1 reads) clean
      exact ⟨[], bs, rfl, .none, closing, fun _ => ⟨rfl, rfl⟩⟩
    | data part =>
      obtain ⟨some, rfl, spells⟩ := readLine_eq_data_iff.1 reads
      rw [decodeFrom_of_data taken reads, Bool.false_or] at decodes
      cases behind : decodeFrom none (part.length < lineBytes) rest with | mk parts ending? => ?_
      rw [behind] at decodes
      obtain ⟨rfl, rfl⟩ := Prod.mk.inj decodes
      rcases isEnding_of_takeLine taken spells.fits with ⟨ending, ends, same⟩ | ⟨rfl, _⟩
      · have fewer : rest.length < n := by
          have positive : line.length ≠ 0 := fun zero => some (List.length_eq_zero_iff.1 zero)
          rw [← size, ← cut, List.length_append]
          omega
        obtain ⟨text, closing, split, body, closes, alone⟩ := ih _ fewer behind rfl
        by_cases full : part.length = 48
        · refine ⟨stripEnding line ++ ending ++ text, closing, ?_, .more spells ends full body, closes, by simp⟩
          rw [← cut, ← same, split, List.append_assoc]
        · have few : part.length < lineBytes := by
            have le := spells.length_le
            simp only [lineBytes] at le ⊢
            omega
          obtain ⟨rfl, rfl⟩ := alone (decide_eq_true few)
          rw [List.append_nil]
          refine ⟨stripEnding line ++ ending, closing, ?_, .last spells ends, closes, by simp⟩
          rw [← cut, ← same, split]
          rfl
      · rw [decodeFrom_nil] at behind
        cases behind

theorem isWhitespace_line {first : Bytes} (space : isWhitespace first = true) :
    first ++ [10] ≠ [] ∧ isWhitespace (first ++ [10]) = true := by
  unfold isWhitespace at space ⊢
  simp [space]
  decide

/-- The mark of the beginning is read behind lines of whitespace. -/
theorem skipBeginning_of_lines {lines : List Bytes} {ending : Bytes}
    (blank : ∀ line ∈ lines, isWhitespace line = true ∧ (10 : UInt8) ∉ line) (ends : IsEnding ending)
    (whitespace : Nat) (few : whitespace + (lines.flatMap (· ++ [10])).length ≤ 1024)
    (taken : takeLine none (some ArmorReader.openingLimit) (lines.flatMap (· ++ [10]) ++ (beginMarker ++ ending ++ rest')) =
      .ok (line, rest)) : skipBeginning none line rest whitespace = .ok rest' := by
  induction lines generalizing line rest whitespace with
  | nil =>
    have mark := @takeLine_of_isEnding beginMarker ending ArmorReader.openingLimit (by decide) (by decide) ends rest'
    rw [List.flatMap_nil, List.nil_append, mark] at taken
    cases taken
    have other : ¬ (beginMarker ++ ending ≠ [] ∧ isWhitespace (beginMarker ++ ending) = true) := by
      rcases ends with rfl | rfl <;> decide
    rw [skipBeginning, dif_neg other, if_pos (stripEnding_of_isEnding (by decide) ends)]
  | cons first lines ih =>
    obtain ⟨⟨space, inside⟩, blank⟩ := List.forall_mem_cons.1 blank
    rw [List.flatMap_cons] at taken few
    simp only [List.length_append, List.length_singleton] at few
    have fits : ∀ limit, some ArmorReader.openingLimit = some limit → first.length < limit := by
      rintro limit ⟨⟩
      simp only [ArmorReader.openingLimit, maxWhitespace]
      omega
    have whole := Buffered.takeLine_of_line none inside fits (lines.flatMap (· ++ [10]) ++ (beginMarker ++ ending ++ rest'))
    rw [Buffered.newline] at whole
    rw [List.append_assoc, List.append_assoc, List.singleton_append, whole] at taken
    cases taken
    obtain ⟨line, rest, next⟩ : ∃ line rest, takeLine none (some ArmorReader.openingLimit)
        (lines.flatMap (· ++ [10]) ++ (beginMarker ++ ending ++ rest')) = .ok (line, rest) :=
      ⟨_, _, Buffered.takeLine_of_not_isOpen (.inl rfl)⟩
    have enough : ¬ maxWhitespace < whitespace + (first ++ [10]).length := by
      simp only [maxWhitespace, List.length_append, List.length_singleton]
      omega
    rw [skipBeginning, dif_pos (isWhitespace_line space), if_neg enough, next]
    dsimp only
    refine ih blank _ ?_ next
    simp only [List.length_append, List.length_singleton]
    omega

/-- What is read as a beginning is lines of whitespace and the mark. -/
theorem lines_of_skipBeginning {whitespace : Nat} (few : whitespace ≤ 1024)
    (taken : takeLine none (some ArmorReader.openingLimit) bs = .ok (line, rest))
    (skips : skipBeginning none line rest whitespace = .ok rest') :
    ∃ lines ending, bs = List.flatMap (· ++ [10]) lines ++ (beginMarker ++ ending ++ rest') ∧
      (∀ line ∈ lines, isWhitespace line = true ∧ (10 : UInt8) ∉ line) ∧
      whitespace + (lines.flatMap (· ++ [10])).length ≤ 1024 ∧ (IsEnding ending ∨ rest' = []) := by
  have cut := Buffered.append_of_takeLine taken
  fun_induction skipBeginning none line rest whitespace generalizing bs with
  | case1 => cases skips
  | case2 => cases skips
  | case3 line rest whitespace blank enough line' rest'' next ih =>
    simp only [maxWhitespace] at enough
    obtain ⟨lines, ending, same, all, total, ends⟩ := ih (by omega) next skips (Buffered.append_of_takeLine next)
    rcases Buffered.cases_of_takeLine taken with ⟨first, rfl, inside⟩ | ⟨inside, rfl | full⟩
    · refine ⟨first :: lines, ending, ?_, List.forall_mem_cons.2 ⟨⟨?_, inside⟩, all⟩, ?_, ends⟩
      · rw [← cut, same, List.flatMap_cons, List.append_assoc _ (lines.flatMap _)]
        rfl
      · have space := blank.2
        unfold isWhitespace at space ⊢
        simp at space
        simpa using space.1
      · rw [List.flatMap_cons]
        simp only [List.length_append, List.length_singleton] at total ⊢
        omega
    · -- Behind the last byte there is no mark.
      have size := congrArg List.length same
      have mark : beginMarker.length = 34 := by decide
      simp only [List.length_append, List.length_nil, mark] at size
      omega
    · simp only [ArmorReader.openingLimit, maxWhitespace] at full
      omega
  | case4 line rest whitespace other begins =>
    cases skips
    have short : (stripEnding line).length + 1 < ArmorReader.openingLimit := by
      rw [begins]
      decide
    rcases isEnding_of_takeLine taken short with ⟨ending, ends, same⟩ | ⟨rfl, ending, _, same⟩
    · exact ⟨[], ending, by rw [← cut, same, begins]; rfl, by simp, by simpa using few, .inl ends⟩
    · exact ⟨[], ending, by rw [← cut, same, begins]; rfl, by simp, by simpa using few, .inr rfl⟩
  | case5 => cases skips

theorem opensArmor_firstLine : opensArmor (firstLine bs) = true ↔ IsArmored bs := by
  rw [opensArmor, IsArmored, Bool.or_eq_true, Bool.and_eq_true, decide_eq_true_eq, List.isPrefixOf_iff_prefix]

theorem takeLine_opening (bs : Bytes) :
    ∃ rest, takeLine none (some ArmorReader.openingLimit) bs = .ok (firstLine bs, rest) :=
  ⟨_, Buffered.takeLine_of_not_isOpen (.inl rfl)⟩

/-- A file that is not armored is left as it is. -/
theorem unarmor_of_not_isArmored (plain : ¬ IsArmored bs) : unarmor none bs = (bs, none) := by
  obtain ⟨rest, taken⟩ := takeLine_opening bs
  have other : opensArmor (firstLine bs) ≠ true := fun opens => plain (opensArmor_firstLine.1 opens)
  simp [unarmor, taken, other]

/-- The armor of a file is removed without a failure exactly if the file is well formed. -/
theorem unarmor_eq_iff (armored : IsArmored bs) : unarmor none bs = (data, none) ↔ Envelope bs data := by
  obtain ⟨rest, taken⟩ := takeLine_opening bs
  have opens := opensArmor_firstLine.2 armored
  simp only [unarmor, taken, opens, if_true]
  constructor
  · intro clean
    cases skips : skipBeginning none (firstLine bs) rest 0 with
    | error e =>
      rw [skips] at clean
      cases clean
    | ok rest' =>
      rw [skips] at clean
      dsimp only at clean
      obtain ⟨lines, ending, same, blank, few, ends⟩ := lines_of_skipBeginning (Nat.zero_le _) taken skips
      obtain ⟨body, closing, rfl, holds, closes, _⟩ := body_of_decodeFrom clean
      have leading : Leading (lines.flatMap (· ++ [10])) := ⟨lines, blank, rfl, by simpa using few⟩
      refine ⟨lines.flatMap (· ++ [10]), ending, body, closing, ?_, leading, ?_, holds, closes⟩
      · rw [same]
        simp only [List.append_assoc]
      · refine ends.resolve_right fun none => ?_
        rw [none, decodeFrom_nil] at clean
        cases clean
  · rintro ⟨leading, ending, body, closing, cut, ⟨lines, blank, rfl, few⟩, ends, holds, closes⟩
    have same : bs = lines.flatMap (· ++ [10]) ++ (beginMarker ++ ending ++ (body ++ closing)) := by
      rw [cut]
      simp only [List.append_assoc]
    have skips : skipBeginning none (firstLine bs) rest 0 = .ok (body ++ closing) := by
      refine skipBeginning_of_lines blank ends 0 (by simpa using few) ?_
      rw [← same]
      exact taken
    rw [skips]
    exact decodeFrom_of_body holds closes

end Armor

namespace ArmorReader

/-- All ways to read a file out come to the same. If the file is not armored, they give it unmodified. If it is armored,
    they reach its end exactly if it is well formed, and then they give the bytes that it holds. -/
theorem readsOut_iff {ρ : Type} [Reader ρ] {inner : ρ} {bs : Bytes} (delivers : Reader.Delivers none inner bs) :
    (∃ data ending?, ∀ data' ending?', Reader.ReadsOut (ofReader inner) data' ending?' ↔ data' = data ∧ ending?' = ending?) ∧
    (¬ Armor.IsArmored bs → ∀ data ending?, Reader.ReadsOut (ofReader inner) data ending? ↔ data = bs ∧ ending? = none) ∧
    (Armor.IsArmored bs → ∀ data, Reader.ReadsOut (ofReader inner) data none ↔ Armor.Envelope bs data) := by
  have reads := fun data ending? => @Reader.readsOut_iff_of_delivers _ _ _ ending? _ data _ (ArmorReader.delivers delivers)
  refine ⟨⟨_, _, reads⟩, fun plain data ending? => ?_, fun armored data => ?_⟩
  · rw [reads, Armor.unarmor_of_not_isArmored plain]
  · rw [reads, ← Armor.unarmor_eq_iff armored]
    constructor
    · rintro ⟨same, clean⟩
      exact Prod.ext same.symm clean.symm
    · intro same
      rw [same]
      exact ⟨rfl, rfl⟩

/-- A file that is not armored, and an armored one with whitespace before it, padding, and without a newline at its end. -/
theorem readsOut_iff_sample :
    let plain : Source := { Source.ofBytes (utf8 "-----BEGIN AGE\n") with portion? := some 1 }
    let armored : Source := { Source.ofBytes (utf8 (" \t\n-----BEGIN AGE ENCRYPTED FILE-----\r\naGk=\n" ++
      "-----END AGE ENCRYPTED FILE-----\r")) with portion? := some 3 }
    Reader.ReadsOut (ofReader plain) (utf8 "-----BEGIN AGE\n") none ∧
      Reader.ReadsOut (ofReader armored) (utf8 "hi") none := by
  intro plain armored
  have plain_delivers := Source.delivers plain (by decide)
  have armored_delivers := Source.delivers armored (by decide)
  constructor
  · exact ((readsOut_iff plain_delivers).2.1 (by decide) _ _).2 ⟨rfl, rfl⟩
  · refine ((readsOut_iff armored_delivers).2.2 (by decide) _).2 ?_
    have leading : Armor.Leading [32, 9, 10] := ⟨[[32, 9]], by decide, rfl, by decide⟩
    refine ⟨[32, 9, 10], [13, 10], [97, 71, 107, 61] ++ [10], Armor.endMarker ++ [13], by decide, leading, .inr rfl,
      .last ⟨1, ?_, ?_, by decide⟩ (.inl rfl), .bare (.inr rfl)⟩
    · decide +kernel
    · decide +kernel

end ArmorReader

end AgeCrypt
