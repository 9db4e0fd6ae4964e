import AgeCrypt.Proofs.HeaderCodec

/-!
# The first fault of a header

A header that cannot be read is rejected for its first line that does not fit, whatever comes behind that line
(`Header.read_eq_error_iff_firstFault`). The lines that fit and what is wrong with the others are described without a
reading: `Header.Begins` gives the lines with which a header may begin, `Header.Fault` what can be wrong with the line
behind them. That a reading passes the former and rejects the latter is shown line by line
(`HeaderReading.next_eq_more_iff`, `HeaderReading.next_eq_error_iff`).
-/

namespace AgeCrypt

open Buffered (newline throughNewline)

/-- A text that a header may hold as a tag or an argument: it is not empty, and its bytes are visible ASCII characters. -/
def IsVisible (token : String) : Prop := token ≠ "" ∧ ∀ b ∈ utf8 token, 33 ≤ b.toNat ∧ b.toNat ≤ 126

theorem isVisible_iff {token : String} : IsVisible token ↔ isArbitraryString token = true :=
  isArbitraryString_iff_bytes.symm

namespace Line

/-- A line of a mark and tokens, each of which has a space before it and none inside. -/
def SplitsInto (mark line : String) (tokens : List String) : Prop :=
  line = join mark tokens ∧ ∀ token ∈ tokens, ' ' ∉ token.toList

theorem SplitsInto.marked {mark line : String} {tokens : List String} (splits : SplitsInto mark line tokens) :
    mark.toList <+: line.toList := by
  rw [splits.1, toList_join]
  exact List.prefix_append _ _

theorem hasMark_iff {mark line : String} : hasMark mark line = true ↔ mark.toList <+: line.toList :=
  List.isPrefixOf_iff_prefix

end Line

namespace Header

/-- What the next line of a header has to be. -/
inductive Place
  /-- The version line. -/
  | version
  /-- The first line of a stanza, or the footer. -/
  | element
  /-- A line of the body of a stanza. -/
  | body

/-- A line that fits at a place, and what has to come behind it. -/
inductive Admits : Place → String → Place → Prop
  | version : Admits .version versionLine .element
  | stanza {tag : String} {args : List String} (visible : ∀ token ∈ tag :: args, IsVisible token) :
      Admits .element (Line.join Line.stanzaMark (tag :: args)) .body
  | full {part : Bytes} (columns : (Base64.encodeText part).toList.length = Line.bodyColumns) :
      Admits .body (Base64.encodeText part) .body
  | short {part : Bytes} (columns : (Base64.encodeText part).toList.length < Line.bodyColumns) :
      Admits .body (Base64.encodeText part) .element

/-- The lines with which a header may begin, and what has to come behind them. -/
inductive Begins : List String → Place → Prop
  | start : Begins [] .version
  | line {before : List String} {line : String} {place place' : Place} (begins : Begins before place)
      (admits : Admits place line place') : Begins (before ++ [line]) place'

/-- What is wrong with a line at a place. There is no line where no newline comes or what comes before it is no text. -/
inductive Fault : Place → Option String → HeaderError → Prop
  | version {line? : Option String} (other : line? ≠ some versionLine) : Fault .version line? .versionLine
  | missing : Fault .element none .malformedStanza
  | unmarked {line : String} (noStanza : ¬ Line.stanzaMark.toList <+: line.toList)
      (noFooter : ¬ Line.footerMark.toList <+: line.toList) : Fault .element (some line) .malformedStanza
  | stanza {line : String} (marked : Line.stanzaMark.toList <+: line.toList)
      (noTokens : ¬ ∃ tag args, Line.SplitsInto Line.stanzaMark line (tag :: args) ∧ tag ≠ "") :
      Fault .element (some line) .malformedStanza
  | token {line tag token : String} {args : List String} (splits : Line.SplitsInto Line.stanzaMark line (tag :: args))
      (named : tag ≠ "") (member : token ∈ tag :: args) (invisible : ¬ IsVisible token) :
      Fault .element (some line) .forbiddenCharacter
  | body {line? : Option String} (noPart : ∀ part, (Base64.encodeText part).toList.length ≤ Line.bodyColumns →
      line? ≠ some (Base64.encodeText part)) : Fault .body line? .malformedStanza
  | footer {line : String} (marked : Line.footerMark.toList <+: line.toList)
      (noToken : ¬ ∃ token, Line.SplitsInto Line.footerMark line [token] ∧ token ≠ "") :
      Fault .element (some line) .malformedFooter
  | mac {line token : String} (splits : Line.SplitsInto Line.footerMark line [token]) (given : token ≠ "")
      (noMac : ∀ mac : Block 32, token ≠ Base64.encodeText mac.bytes) : Fault .element (some line) .malformedMac

/-- Bytes through the newline of a line that does not fit, behind lines that do. -/
inductive Offends : Bytes → HeaderError → Prop
  | line {before : List String} {place : Place} {line : Bytes} {fault : HeaderError} (begins : Begins before place)
      (inside : newline ∉ line) (isFault : Fault place (ofUtf8? line) fault) :
      Offends (before.flatMap Line.toBytes ++ line ++ [newline]) fault

/-- What is wrong with an input: the first line that does not fit, whatever comes behind it, or that the input ends
    where a line has to come. -/
inductive FirstFault : Bytes → HeaderError → Prop
  | line {through : Bytes} {fault : HeaderError} (offends : Offends through fault) (rest : Bytes) :
      FirstFault (through ++ rest) fault
  | missing {before : List String} {place : Place} {last : Bytes} {fault : HeaderError} (begins : Begins before place)
      (inside : newline ∉ last) (isFault : Fault place none fault) : FirstFault (before.flatMap Line.toBytes ++ last) fault

end Header

namespace HeaderReading

open Header (Admits Begins Fault FirstFault Offends Place)

/-- What a reading expects next. -/
def place : HeaderReading → Place
  | version => .version
  | element _ => .element
  | body .. => .body

theorem stanzaLine_of_splits {line tag : String} {args : List String}
    (splits : Line.SplitsInto Line.stanzaMark line (tag :: args)) (named : tag ≠ "") : stanzaLine line =
      if (tag :: args).all isArbitraryString then .ok (tag, args) else .error .forbiddenCharacter := by
  have found : Line.stanza line = some (tag :: args) := Line.tokensAfter_eq_some_iff.2 splits
  rw [stanzaLine, found]
  exact if_neg named

theorem stanzaLine_of_noTokens {line : String}
    (noTokens : ¬ ∃ tag args, Line.SplitsInto Line.stanzaMark line (tag :: args) ∧ tag ≠ "") :
    stanzaLine line = .error .malformedStanza := by
  unfold stanzaLine
  split
  · rfl
  · rfl
  · rename_i tag args found
    by_cases named : tag = ""
    · rw [if_pos named]
    · exact absurd ⟨tag, args, Line.tokensAfter_eq_some_iff.1 found, named⟩ noTokens

theorem fault_of_stanzaLine {line : String} {fault : HeaderError} (marked : Line.stanzaMark.toList <+: line.toList)
    (fails : stanzaLine line = .error fault) : Fault .element (some line) fault := by
  by_cases tokens : ∃ tag args, Line.SplitsInto Line.stanzaMark line (tag :: args) ∧ tag ≠ ""
  · obtain ⟨tag, args, splits, named⟩ := tokens
    rw [stanzaLine_of_splits splits named] at fails
    split at fails
    · cases fails
    · rename_i notAll
      cases fails
      obtain ⟨token, member, invisible⟩ := List.all_eq_false.1 (Bool.not_eq_true _ ▸ notAll)
      exact .token splits named member fun visible => invisible (isVisible_iff.1 visible)
  · rw [stanzaLine_of_noTokens tokens] at fails
    cases fails
    exact .stanza marked tokens

theorem footerLine_of_splits {line token : String} (splits : Line.SplitsInto Line.footerMark line [token])
    (given : token ≠ "") : footerLine line =
      match (Base64.decode token.toList).bind (Block.ofBytes? 32) with
      | some mac => .ok mac
      | none => .error .malformedMac := by
  have found : Line.footer line = some [token] := Line.tokensAfter_eq_some_iff.2 splits
  rw [footerLine, found]
  exact if_neg given

theorem footerLine_of_noToken {line : String}
    (noToken : ¬ ∃ token, Line.SplitsInto Line.footerMark line [token] ∧ token ≠ "") :
    footerLine line = .error .malformedFooter := by
  unfold footerLine
  split
  · rename_i token found
    by_cases given : token = ""
    · rw [if_pos given]
    · exact absurd ⟨token, Line.tokensAfter_eq_some_iff.1 found, given⟩ noToken
  · rfl

theorem fault_of_footerLine {line : String} {fault : HeaderError} (marked : Line.footerMark.toList <+: line.toList)
    (fails : footerLine line = .error fault) : Fault .element (some line) fault := by
  by_cases single : ∃ token, Line.SplitsInto Line.footerMark line [token] ∧ token ≠ ""
  · obtain ⟨token, splits, given⟩ := single
    rw [footerLine_of_splits splits given] at fails
    split at fails
    · cases fails
    · rename_i undecodable
      cases fails
      refine .mac splits given fun mac same => ?_
      rw [Base64.decodeBlock_eq_some_iff.2 same] at undecodable
      cases undecodable
  · rw [footerLine_of_noToken single] at fails
    cases fails
    exact .footer marked single

theorem next_of_footerMark {line : String} (stanzas : List Stanza) (marked : Line.footerMark.toList <+: line.toList) :
    (element stanzas).next line = (footerLine line).map fun mac => .complete ⟨stanzas.reverse, mac⟩ :=
  if_pos (Line.hasMark_iff.2 marked)

theorem not_footerMark {line : String} (marked : Line.stanzaMark.toList <+: line.toList) :
    ¬ Line.footerMark.toList <+: line.toList := by
  rintro ⟨rest, same⟩
  obtain ⟨rest', same'⟩ := marked
  rw [← same'] at same
  simp [Line.footerMark, Line.stanzaMark] at same

theorem next_of_stanzaMark {line : String} (stanzas : List Stanza) (marked : Line.stanzaMark.toList <+: line.toList) :
    (element stanzas).next line = (stanzaLine line).map fun (tag, args) => .more (body stanzas tag args #[]) := by
  have noFooter := mt Line.hasMark_iff.1 (not_footerMark marked)
  rw [next, if_neg noFooter, if_pos (Line.hasMark_iff.2 marked)]

theorem next_of_noMark {line : String} (stanzas : List Stanza) (noStanza : ¬ Line.stanzaMark.toList <+: line.toList)
    (noFooter : ¬ Line.footerMark.toList <+: line.toList) : (element stanzas).next line = .error .malformedStanza := by
  rw [next, if_neg (mt Line.hasMark_iff.1 noFooter), if_neg (mt Line.hasMark_iff.1 noStanza)]

theorem map_eq_error_iff {α β : Type} {f : α → β} {result : Except HeaderError α} {fault : HeaderError} :
    result.map f = .error fault ↔ result = .error fault := by
  cases result <;> simp [Except.map]

theorem next_element_eq_error_iff {stanzas : List Stanza} {line : String} {fault : HeaderError} :
    (element stanzas).next line = .error fault ↔ Fault .element (some line) fault := by
  constructor
  · intro fails
    by_cases footer : Line.footerMark.toList <+: line.toList
    · rw [next_of_footerMark stanzas footer, map_eq_error_iff] at fails
      exact fault_of_footerLine footer fails
    by_cases stanza : Line.stanzaMark.toList <+: line.toList
    · rw [next_of_stanzaMark stanzas stanza, map_eq_error_iff] at fails
      exact fault_of_stanzaLine stanza fails
    · rw [next_of_noMark stanzas stanza footer] at fails
      cases fails
      exact .unmarked stanza footer
  · intro isFault
    cases isFault with
    | unmarked noStanza noFooter => exact next_of_noMark stanzas noStanza noFooter
    | stanza marked noTokens => rw [next_of_stanzaMark stanzas marked, stanzaLine_of_noTokens noTokens]; rfl
    | @token _ tag token args splits named member invisible =>
      have notAll : ¬ (tag :: args).all isArbitraryString = true := fun all =>
        invisible (isVisible_iff.2 (List.all_eq_true.1 all token member))
      rw [next_of_stanzaMark stanzas splits.marked, stanzaLine_of_splits splits named, if_neg notAll]
      rfl
    | footer marked noToken => rw [next_of_footerMark stanzas marked, footerLine_of_noToken noToken]; rfl
    | mac splits given noMac =>
      rw [next_of_footerMark stanzas splits.marked, footerLine_of_splits splits given]
      split
      · rename_i mac decoded
        exact absurd (Base64.decodeBlock_eq_some_iff.1 decoded) (noMac mac)
      · rfl

/-- A line of a body does not fit if it is not the Base64 of at most one full line. -/
theorem next_body_eq_error_iff {stanzas : List Stanza} {tag line : String} {args : List String} {bytes : Array UInt8}
    {fault : HeaderError} : (body stanzas tag args bytes).next line = .error fault ↔ Fault .body (some line) fault := by
  constructor
  · intro fails
    cases found : Line.body line with
    | none =>
      rw [next, found] at fails
      cases fails
      refine .body fun part columns same => ?_
      rw [Line.body_eq_some_iff.2 ⟨Option.some.inj same, (Line.length_le_bodyColumns_iff part).1 columns⟩] at found
      cases found
    | some part =>
      rw [next, found] at fails
      dsimp only at fails
      split at fails <;> cases fails
  · intro isFault
    cases isFault with
    | body noPart =>
      cases found : Line.body line with
      | none => rw [next, found]
      | some part =>
        obtain ⟨rfl, size⟩ := Line.body_eq_some_iff.1 found
        exact absurd rfl (noPart part ((Line.length_le_bodyColumns_iff part).2 size))

theorem next_version_eq_error_iff {line : String} {fault : HeaderError} :
    version.next line = .error fault ↔ Fault .version (some line) fault := by
  constructor
  · intro fails
    rw [next] at fails
    split at fails
    · cases fails
    · rename_i other
      cases fails
      exact .version fun same => other (Option.some.inj same)
  · rintro ⟨other⟩
    rw [next, if_neg fun same => other (congrArg some same)]

/-- What is wrong with a line is why the reading rejects it. -/
theorem next_eq_error_iff {reading : HeaderReading} {line : String} {fault : HeaderError} :
    reading.next line = .error fault ↔ Fault reading.place (some line) fault := by
  cases reading with
  | version => exact next_version_eq_error_iff
  | element stanzas => exact next_element_eq_error_iff
  | body stanzas tag args bytes => exact next_body_eq_error_iff

theorem missingLine_eq_iff {reading : HeaderReading} {fault : HeaderError} :
    fault = reading.missingLine ↔ Fault reading.place none fault := by
  constructor
  · rintro rfl
    cases reading with
    | version => exact .version fun same => by cases same
    | element stanzas => exact .missing
    | body stanzas tag args bytes => exact .body fun part _ same => by cases same
  · intro isFault
    cases reading <;> cases isFault <;> rfl

/-- The lines with which a reading goes on are those that fit. -/
theorem next_eq_more_iff {reading : HeaderReading} {line : String} {place : Place} :
    (∃ reading', reading.next line = .ok (.more reading') ∧ reading'.place = place) ↔ Admits reading.place line place := by
  constructor
  · rintro ⟨reading', step, rfl⟩
    cases reading with
    | version =>
      rw [next] at step
      split at step
      · rename_i same
        cases step
        rw [same]
        exact .version
      · cases step
    | element stanzas =>
      rcases next_element_eq_ok_iff.1 step with ⟨mac, _, other⟩ | ⟨tag, args, rfl, allowed, same⟩
      · cases other
      · cases same
        exact .stanza fun token member => isVisible_iff.2 (List.all_eq_true.1 allowed token member)
    | body stanzas tag args bytes =>
      obtain ⟨part, rfl, ⟨short, same⟩ | ⟨full, same⟩⟩ := next_body_eq_ok_iff.1 step
      · cases same
        exact .short ((Line.length_lt_bodyColumns_iff part).2 short)
      · cases same
        exact .full ((Line.length_eq_bodyColumns_iff part).2 full)
  · intro admits
    cases reading with
    | version =>
      cases admits
      exact ⟨element [], by rw [next, if_pos rfl], rfl⟩
    | element stanzas =>
      cases admits with
      | @stanza tag args visible =>
        have allowed : (tag :: args).all isArbitraryString = true :=
          List.all_eq_true.2 fun token member => isVisible_iff.1 (visible token member)
        exact ⟨body stanzas tag args #[], next_element_eq_ok_iff.2 (.inr ⟨tag, args, rfl, allowed, rfl⟩), rfl⟩
    | body stanzas tag args bytes =>
      cases admits with
      | @full part columns =>
        have size := (Line.length_eq_bodyColumns_iff part).1 columns
        exact ⟨body stanzas tag args (bytes ++ part), next_body_eq_ok_iff.2 ⟨part, rfl, .inr ⟨size, rfl⟩⟩, rfl⟩
      | @short part columns =>
        have size := (Line.length_lt_bodyColumns_iff part).1 columns
        exact ⟨element _, next_body_eq_ok_iff.2 ⟨part, rfl, .inl ⟨size, rfl⟩⟩, rfl⟩

theorem newline_not_mem_of_admits {place place' : Place} {line : String} (admits : Admits place line place') :
    newline ∉ utf8 line := by
  refine Header.newline_not_mem ?_
  have encoded : ∀ part, IsPrintable (Base64.encodeText part).toList := by
    intro part
    rw [Base64.toList_encodeText]
    exact Base64.isPrintable_encode part
  cases admits with
  | version => exact isPrintable_of_all (by decide)
  | stanza visible =>
    refine Line.isPrintable_join (isPrintable_of_all (by decide)) fun token member => ?_
    exact isPrintable_of_isArbitraryString (isVisible_iff.1 (visible token member))
  | full => exact encoded _
  | short => exact encoded _

/-! ## Reading -/

variable {ρ : Type} [Reader ρ] {r r' : Buffered ρ} {bs rest : Bytes} {fault : HeaderError}

/-- Reading passes a line that fits. -/
theorem readFrom_of_admits {reading : HeaderReading} {line : String} {place : Place}
    (admits : Admits reading.place line place) (holds : r.Holds none (Line.toBytes line ++ rest)) :
    ∃ (reading' : HeaderReading) (r' : Buffered ρ),
      reading'.place = place ∧ r'.Holds none rest ∧ reading.readFrom r = reading'.readFrom r' := by
  obtain ⟨reading', step, there⟩ := next_eq_more_iff.2 admits
  obtain ⟨r', read, left⟩ := Line.readLine_toBytes (newline_not_mem_of_admits admits) holds
  refine ⟨reading', r', there, left, ?_⟩
  rw [readFrom_of_line reading read, step]

theorem readFrom_of_begins {before : List String} {place : Place} (begins : Begins before place)
    (holds : r.Holds none (before.flatMap Line.toBytes ++ rest)) :
    ∃ (reading : HeaderReading) (r' : Buffered ρ),
      reading.place = place ∧ r'.Holds none rest ∧ version.readFrom r = reading.readFrom r' := by
  induction begins generalizing rest with
  | start => exact ⟨version, r, rfl, holds, rfl⟩
  | line _ admits ih =>
    rw [List.flatMap_append, List.flatMap_singleton, List.append_assoc] at holds
    obtain ⟨reading, r₁, rfl, left, reads⟩ := ih holds
    rw [reads]
    exact readFrom_of_admits admits left

/-- Reading stops at a line that does not fit. -/
theorem readFrom_of_fault {reading : HeaderReading} (holds : r.Holds none bs)
    (isFault : Fault reading.place (lineText? (throughNewline bs)) fault) :
    (reading.readFrom r).1 = .error (.header fault) := by
  have takes : Buffered.takeLine none none bs = .ok (throughNewline bs, bs.drop (throughNewline bs).length) :=
    Buffered.takeLine_of_not_isOpen (.inl rfl)
  obtain ⟨r', reads, _⟩ := Buffered.readLine_of_takeLine holds takes
  rw [readFrom]
  split
  · rename_i fails
    rw [reads] at fails
    cases fails
  · rename_i ok
    rw [reads] at ok
    cases ok
    split
    · rename_i noText
      rw [noText] at isFault
      rw [missingLine_eq_iff.2 isFault]
    · rename_i text isText
      rw [isText] at isFault
      rw [next_eq_error_iff.2 isFault]

theorem lineText?_concat (line : Bytes) : lineText? (line ++ [newline]) = ofUtf8? line := by
  rw [lineText?, if_pos List.getLast?_concat, List.dropLast_concat]

theorem lineText?_of_not_mem {last : Bytes} (inside : newline ∉ last) : lineText? last = none :=
  if_neg fun ends => inside (List.mem_of_getLast? ends)

/-- What is wrong with the next line is wrong with the whole input, as all lines before it fit. -/
theorem firstFault_of_fault {before : List String} {place : Place} (begins : Begins before place)
    (isFault : Fault place (lineText? (throughNewline rest)) fault) :
    FirstFault (before.flatMap Line.toBytes ++ rest) fault := by
  rcases Buffered.throughNewline_cases rest with ⟨inside, same⟩ | ⟨line, after, rfl, inside, same⟩
  · rw [same, lineText?_of_not_mem inside] at isFault
    exact .missing begins inside isFault
  · rw [same, lineText?_concat] at isFault
    have found := FirstFault.line (Offends.line begins inside isFault) after
    simpa using found

theorem throughNewline_of_readLine {line : Bytes} (holds : r.Holds none bs) (read : r.readLine none = (.ok line, r')) :
    throughNewline bs = line := by
  obtain ⟨rest, takes, _⟩ := Buffered.takeLine_of_readLine_ok holds read
  cases takes
  rfl

/-- A reading that fails does so for the first line that does not fit. -/
theorem firstFault_of_readFrom {reading : HeaderReading} {before : List String} {e : DecryptError}
    (begins : Begins before reading.place) (holds : r.Holds none rest)
    (fails : (reading.readFrom r).1 = .error e) :
    ∃ fault, e = .header fault ∧ FirstFault (before.flatMap Line.toBytes ++ rest) fault := by
  fun_induction readFrom reading r generalizing before rest with
  | case1 reading r e' s read =>
    have takes := Buffered.takeLine_of_readLine_error holds read
    cases takes
  | case2 reading r line s read noText =>
    cases fails
    rw [← throughNewline_of_readLine holds read] at noText
    refine ⟨_, rfl, firstFault_of_fault begins ?_⟩
    rw [noText]
    exact missingLine_eq_iff.1 rfl
  | case3 reading r line s read text isText fault step =>
    cases fails
    rw [← throughNewline_of_readLine holds read] at isText
    refine ⟨_, rfl, firstFault_of_fault begins ?_⟩
    rw [isText]
    exact next_eq_error_iff.1 step
  | case4 => cases fails
  | case5 reading r line s read text isText reading' step ih =>
    obtain ⟨rest', takes, left⟩ := Buffered.takeLine_of_readLine_ok holds read
    have cut := Buffered.append_of_takeLine takes
    rw [eq_toBytes_of_lineText? isText] at cut
    obtain ⟨fault, same, found⟩ := ih (.line begins (next_eq_more_iff.1 ⟨reading', step, rfl⟩)) left fails
    refine ⟨fault, same, ?_⟩
    rwa [List.flatMap_append, List.flatMap_singleton, List.append_assoc, cut] at found

end HeaderReading

namespace Header

open HeaderReading

variable {ρ : Type} [Reader ρ] {r : Buffered ρ} {bs through : Bytes} {fault : HeaderError}

theorem read_of_offends (offends : Offends through fault) {rest : Bytes} (holds : r.Holds none (through ++ rest)) :
    (read r).1 = .error (.header fault) := by
  obtain ⟨begins, inside, isFault⟩ := offends
  rename_i before place line
  have whole : before.flatMap Line.toBytes ++ line ++ [newline] ++ rest =
      before.flatMap Line.toBytes ++ (line ++ newline :: rest) := by simp
  rw [whole] at holds
  obtain ⟨reading, r', rfl, left, reads⟩ := readFrom_of_begins begins holds
  rw [read, reads]
  refine readFrom_of_fault left ?_
  rwa [Buffered.throughNewline_of_line rest inside, lineText?_concat]

theorem read_of_firstFault (found : FirstFault bs fault) (holds : r.Holds none bs) :
    (read r).1 = .error (.header fault) := by
  cases found with
  | line offends rest => exact read_of_offends offends holds
  | missing begins inside isFault =>
    obtain ⟨reading, r', rfl, left, reads⟩ := readFrom_of_begins begins holds
    rw [read, reads]
    refine readFrom_of_fault left ?_
    rwa [Buffered.throughNewline_of_not_mem inside, lineText?_of_not_mem inside]

/-- An input is rejected as a header for what is wrong with its first line that does not fit. What comes behind that line
    makes no difference. -/
theorem read_eq_error_iff_firstFault (holds : r.Holds none bs) :
    (∀ e, (read r).1 = .error e ↔ ∃ fault, e = .header fault ∧ FirstFault bs fault) ∧
    ∀ through rest fault, Offends through fault → bs = through ++ rest →
      ∀ (other : Buffered ρ) (rest' : Bytes), other.Holds none (through ++ rest') → (read other).1 = (read r).1 := by
  constructor
  · intro e
    constructor
    · intro fails
      exact firstFault_of_readFrom Begins.start holds fails
    · rintro ⟨fault, rfl, found⟩
      exact read_of_firstFault found holds
  · rintro through rest fault offends rfl other rest' holds'
    rw [read_of_offends offends holds', read_of_offends offends holds]

/-- An empty argument, with the beginning of a body behind it or another stanza. -/
theorem read_eq_error_iff_firstFault_argument :
    let through := Line.toBytes versionLine ++ Line.toBytes "-> a  b"
    let input : Source := { Source.ofBytes (through ++ utf8 "AAA=") with portion? := some 1 }
    (read (Buffered.ofReader input)).1 = .error (.header .forbiddenCharacter) ∧
      (read (Buffered.ofReader (Source.ofBytes (through ++ utf8 "-> b\n")))).1 = (read (Buffered.ofReader input)).1 := by
  intro through input
  have holds := Buffered.holds_ofReader (Source.delivers input (by decide))
  have others := Buffered.holds_ofReader (Source.delivers_ofBytes (through ++ utf8 "-> b\n"))
  have splits : Line.SplitsInto Line.stanzaMark "-> a  b" ["a", "", "b"] := ⟨by decide, by decide⟩
  have isFault : Fault .element (ofUtf8? (utf8 "-> a  b")) .forbiddenCharacter := by
    rw [ofUtf8?_utf8]
    exact .token splits (by decide) (by decide) fun visible => visible.1 rfl
  have offends : Offends through .forbiddenCharacter := by
    have found := Offends.line (.line .start .version) (by decide) isFault
    simpa [through, Line.toBytes] using found
  obtain ⟨decided, same⟩ := read_eq_error_iff_firstFault holds
  exact ⟨(decided _).2 ⟨_, rfl, .line offends _⟩, same through _ _ offends rfl _ _ others⟩

end Header

end AgeCrypt
