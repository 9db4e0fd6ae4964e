import AgeCrypt.Header.Reading
import AgeCrypt.Proofs.Texts

/-!
# Headers line by line

A header is written as lines (`Header.toBytes_eq_lines`), and a reading of lines that is complete has read exactly the
lines of the header that it gives (`HeaderReading.accepts_iff`): every other way to write a header is rejected. That the
MAC is computed over a header that was written anew therefore makes no difference (`Header.signedPart_toBytes`).
-/

namespace AgeCrypt

namespace Line

/-- A mark and tokens with a space before each. -/
def join (mark : String) (ts : List String) : String :=
  String.ofList (mark.toList ++ ts.flatMap fun t => ' ' :: t.toList)

theorem toList_join (mark : String) (ts : List String) :
    (join mark ts).toList = mark.toList ++ ts.flatMap fun t => ' ' :: t.toList := String.toList_ofList

theorem betweenSpaces_cons (c : Char) (cs : List Char) : betweenSpaces (c :: cs) =
    if c = ' ' then [] :: betweenSpaces cs else (c :: (betweenSpaces cs).headD []) :: (betweenSpaces cs).tail := rfl

theorem betweenSpaces_ne_nil (cs : List Char) : betweenSpaces cs ≠ [] := by
  cases cs with
  | nil => simp [betweenSpaces]
  | cons c cs =>
    rw [betweenSpaces_cons]
    split <;> simp

/-- The runs with a space before each are the text with a space before it. -/
theorem flatMap_betweenSpaces (cs : List Char) : ((betweenSpaces cs).flatMap fun run => ' ' :: run) = ' ' :: cs := by
  induction cs with
  | nil => rfl
  | cons c cs ih =>
    rw [betweenSpaces_cons]
    by_cases space : c = ' '
    · rw [if_pos space, List.flatMap_cons, ih, space]
      rfl
    · rw [if_neg space, List.flatMap_cons]
      cases runs : betweenSpaces cs with
      | nil => exact absurd runs (betweenSpaces_ne_nil cs)
      | cons run rest =>
        rw [runs, List.flatMap_cons] at ih
        injection ih with _ ih
        simp [← ih]

theorem betweenSpaces_append {run : List Char} (inside : ' ' ∉ run) (cs : List Char) :
    betweenSpaces (run ++ cs) = (run ++ (betweenSpaces cs).headD []) :: (betweenSpaces cs).tail := by
  induction run with
  | nil =>
    cases runs : betweenSpaces cs with
    | nil => exact absurd runs (betweenSpaces_ne_nil cs)
    | cons first rest => simp [runs]
  | cons c run ih =>
    obtain ⟨differ, rest⟩ := not_or.1 (mt List.mem_cons.2 inside)
    rw [List.cons_append, betweenSpaces_cons, if_neg (Ne.symm differ), ih rest]
    rfl

theorem betweenSpaces_flatMap {run : List Char} {runs : List (List Char)} (inside : ∀ r ∈ run :: runs, ' ' ∉ r) :
    betweenSpaces (run ++ runs.flatMap fun r => ' ' :: r) = run :: runs := by
  induction runs generalizing run with
  | nil =>
    rw [betweenSpaces_append (inside run List.mem_cons_self)]
    simp [betweenSpaces]
  | cons next runs ih =>
    have rest := ih fun r member => inside r (List.mem_cons_of_mem run member)
    rw [betweenSpaces_append (inside run List.mem_cons_self), List.flatMap_cons, List.cons_append, betweenSpaces_cons,
      if_pos rfl, rest]
    simp

theorem tokens_eq_some {cs : List Char} {ts : List (List Char)} (reads : tokens cs = some ts) :
    cs = ts.flatMap fun t => ' ' :: t := by
  cases cs with
  | nil =>
    cases reads
    rfl
  | cons c cs =>
    rw [tokens] at reads
    split at reads
    · rename_i space
      cases reads
      rw [flatMap_betweenSpaces, space]
    · cases reads

theorem not_mem_of_mem_betweenSpaces {cs run : List Char} (member : run ∈ betweenSpaces cs) : ' ' ∉ run := by
  induction cs generalizing run with
  | nil =>
    rw [List.mem_singleton.1 member]
    exact List.not_mem_nil
  | cons c cs ih =>
    rw [betweenSpaces_cons] at member
    split at member
    · rcases List.mem_cons.1 member with rfl | member
      · exact List.not_mem_nil
      · exact ih member
    · rename_i other
      cases runs : betweenSpaces cs with
      | nil => exact absurd runs (betweenSpaces_ne_nil cs)
      | cons first rest =>
        rw [runs] at ih member
        rcases List.mem_cons.1 member with rfl | member
        · exact List.not_mem_cons_of_ne_of_not_mem (Ne.symm other) (ih List.mem_cons_self)
        · exact ih (List.mem_cons_of_mem first member)

theorem not_mem_of_mem_tokens {cs : List Char} {ts : List (List Char)} (reads : tokens cs = some ts) {t : List Char}
    (member : t ∈ ts) : ' ' ∉ t := by
  cases cs with
  | nil =>
    cases reads
    cases member
  | cons c cs =>
    rw [tokens] at reads
    split at reads
    · cases reads
      exact not_mem_of_mem_betweenSpaces member
    · cases reads

theorem tokens_flatMap {ts : List (List Char)} (inside : ∀ t ∈ ts, ' ' ∉ t) :
    tokens (ts.flatMap fun t => ' ' :: t) = some ts := by
  cases ts with
  | nil => rfl
  | cons t ts =>
    rw [List.flatMap_cons, List.cons_append, tokens, if_pos rfl, betweenSpaces_flatMap inside]

/-- A line of tokens is their mark with them behind it. -/
theorem eq_join_of_tokensAfter {mark line : String} {ts : List String} (reads : tokensAfter mark line = some ts) :
    line = join mark ts := by
  unfold tokensAfter at reads
  split at reads
  · rename_i marked
    obtain ⟨runs, found, rfl⟩ := Option.map_eq_some_iff.1 reads
    have whole := List.prefix_iff_eq_append.1 (List.isPrefixOf_iff_prefix.1 marked)
    rw [tokens_eq_some found] at whole
    rw [join, List.flatMap_map]
    simp only [String.toList_ofList]
    rw [whole, String.ofList_toList]
  · cases reads

theorem hasMark_join (mark : String) (ts : List String) : hasMark mark (join mark ts) = true := by
  rw [hasMark, toList_join]
  exact List.isPrefixOf_iff_prefix.2 (List.prefix_append _ _)

theorem tokensAfter_join {mark : String} {ts : List String} (inside : ∀ t ∈ ts, ' ' ∉ t.toList) :
    tokensAfter mark (join mark ts) = some ts := by
  have separated : tokens (ts.flatMap fun t => ' ' :: t.toList) = some (ts.map String.toList) := by
    have := @tokens_flatMap (ts.map String.toList) fun t member => by
      obtain ⟨s, found, rfl⟩ := List.mem_map.1 member
      exact inside s found
    rwa [List.flatMap_map] at this
  rw [tokensAfter, if_pos (hasMark_join mark ts), toList_join, List.drop_left, separated]
  simp [Function.comp_def]

/-- The tokens of a line, each with a space before it, if it consists of the mark and them. -/
theorem tokensAfter_eq_some_iff {mark line : String} {ts : List String} :
    tokensAfter mark line = some ts ↔ line = join mark ts ∧ ∀ t ∈ ts, ' ' ∉ t.toList := by
  constructor
  · intro reads
    refine ⟨eq_join_of_tokensAfter reads, fun t member => ?_⟩
    rw [tokensAfter] at reads
    split at reads
    · obtain ⟨runs, found, rfl⟩ := Option.map_eq_some_iff.1 reads
      obtain ⟨run, inside, rfl⟩ := List.mem_map.1 member
      rw [String.toList_ofList]
      exact not_mem_of_mem_tokens found inside
    · cases reads
  · rintro ⟨rfl, inside⟩
    exact tokensAfter_join inside

theorem length_le_bodyColumns_iff (part : Bytes) :
    (Base64.encodeText part).toList.length ≤ bodyColumns ↔ part.length ≤ bodyBytes := by
  rw [Base64.toList_encodeText, Base64.length_encode, bodyColumns, bodyBytes]
  omega

theorem body_eq_some_iff {line : String} {part : Bytes} :
    body line = some part ↔ line = Base64.encodeText part ∧ part.length ≤ bodyBytes := by
  unfold body
  constructor
  · intro reads
    split at reads
    · rename_i short
      obtain rfl := Base64.eq_encodeText_of_decode reads
      exact ⟨rfl, (length_le_bodyColumns_iff part).1 short⟩
    · cases reads
  · rintro ⟨rfl, short⟩
    rw [if_pos ((length_le_bodyColumns_iff part).2 short), Base64.decode_encodeText]

/-- A line of a body is full exactly if it holds as many bytes as a full one. -/
theorem length_lt_bodyColumns_iff (part : Bytes) :
    (Base64.encodeText part).toList.length < bodyColumns ↔ part.length < bodyBytes := by
  rw [Base64.toList_encodeText, Base64.length_encode, bodyColumns, bodyBytes]
  omega

theorem length_eq_bodyColumns_iff (part : Bytes) :
    (Base64.encodeText part).toList.length = bodyColumns ↔ part.length = bodyBytes := by
  rw [Base64.toList_encodeText, Base64.length_encode, bodyColumns, bodyBytes]
  omega

theorem ofBody_of_short {part : Bytes} (short : part.length < bodyBytes) : ofBody part = [Base64.encodeText part] := by
  have whole : part.take bodyBytes = part := List.take_of_length_le (Nat.le_of_lt short)
  rw [ofBody, whole, if_pos short]

theorem ofBody_append {part : Bytes} (full : part.length = bodyBytes) (rest : Bytes) :
    ofBody (part ++ rest) = Base64.encodeText part :: ofBody rest := by
  rw [ofBody, List.take_left' full, List.drop_left' full, if_neg (by omega)]

theorem ofBody_flatten {full : List Bytes} {last : Bytes} (full_length : ∀ part ∈ full, part.length = bodyBytes)
    (short : last.length < bodyBytes) :
    ofBody (full.flatten ++ last) = full.map Base64.encodeText ++ [Base64.encodeText last] := by
  induction full with
  | nil => exact ofBody_of_short short
  | cons part full ih =>
    have rest := ih fun other member => full_length other (List.mem_cons_of_mem part member)
    rw [List.flatten_cons, List.append_assoc, ofBody_append (full_length part List.mem_cons_self), rest]
    rfl

end Line

/-! ## Lines of a header -/

/-- The lines of a stanza: its tag and arguments, then its body. -/
def Stanza.lines (s : Stanza) : List String := Line.join Line.stanzaMark (s.tag :: s.args) :: Line.ofBody s.body

/-- The footer of a header. -/
def Line.ofMac (mac : Block 32) : String := Line.join Line.footerMark [Base64.encodeText mac.bytes]

namespace Header

/-- The lines before the footer. -/
def linesBeforeFooter (recipients : List Stanza) : List String := versionLine :: recipients.flatMap Stanza.lines

/-- The lines of a header. -/
def lines (h : Header) : List String := linesBeforeFooter h.recipients ++ [Line.ofMac h.mac]

/-- Whether every stanza is such as a header may hold. -/
def isWritable (h : Header) : Bool := h.recipients.all Stanza.isWritable

end Header

theorem not_mem_of_isArbitraryString {s : String} (arbitrary : isArbitraryString s = true) : ' ' ∉ s.toList := by
  intro member
  simp only [isArbitraryString, Bool.and_eq_true, List.all_eq_true] at arbitrary
  exact absurd (arbitrary.2 ' ' member) (by decide)

theorem ne_empty_of_isArbitraryString {s : String} (arbitrary : isArbitraryString s = true) : s ≠ "" := by
  rintro rfl
  exact absurd arbitrary (by decide)

namespace HeaderReading

theorem stanzaLine_eq_ok_iff {line tag : String} {args : List String} : stanzaLine line = .ok (tag, args) ↔
    line = Line.join Line.stanzaMark (tag :: args) ∧ (tag :: args).all isArbitraryString = true := by
  unfold stanzaLine
  constructor
  · intro reads
    split at reads
    · cases reads
    · cases reads
    · rename_i found
      split at reads
      · cases reads
      split at reads
      · rename_i allowed
        cases reads
        exact ⟨Line.eq_join_of_tokensAfter found, allowed⟩
      · cases reads
  · rintro ⟨rfl, allowed⟩
    have arbitrary := List.all_eq_true.1 allowed
    have found : Line.stanza (Line.join Line.stanzaMark (tag :: args)) = some (tag :: args) :=
      Line.tokensAfter_join fun t member => not_mem_of_isArbitraryString (arbitrary t member)
    have nonempty := ne_empty_of_isArbitraryString (arbitrary tag List.mem_cons_self)
    rw [found]
    simp only [if_neg nonempty, if_pos allowed]

theorem footerLine_eq_ok_iff {line : String} {mac : Block 32} : footerLine line = .ok mac ↔ line = Line.ofMac mac := by
  unfold footerLine
  constructor
  · intro reads
    split at reads
    · rename_i text found
      split at reads
      · cases reads
      split at reads
      · rename_i decoded
        cases reads
        rw [Line.eq_join_of_tokensAfter found, Base64.decodeBlock_eq_some_iff.1 decoded]
        rfl
      · cases reads
    · cases reads
  · rintro rfl
    have inside : ' ' ∉ (Base64.encodeText mac.bytes).toList := by
      rw [Base64.toList_encodeText]
      intro member
      exact absurd (Base64.visible_of_mem_encode member).1 (by decide)
    have nonempty : Base64.encodeText mac.bytes ≠ "" := by
      intro none
      have size := congrArg (fun s => s.toList.length) none
      simp only [Base64.toList_encodeText, Base64.length_encode, mac.length_bytes] at size
      cases size
    have found : Line.footer (Line.ofMac mac) = some [Base64.encodeText mac.bytes] :=
      Line.tokensAfter_join fun t member => List.mem_singleton.1 member ▸ inside
    rw [found]
    simp only [if_neg nonempty, Base64.decodeBlock_eq_some_iff.2 rfl]

/-- A line behind a stanza is the footer or begins another stanza. -/
theorem next_element_eq_ok_iff {stanzas : List Stanza} {line : String} {step : Step} :
    (element stanzas).next line = .ok step ↔
      (∃ mac, line = Line.ofMac mac ∧ step = .complete ⟨stanzas.reverse, mac⟩) ∨
      (∃ tag args, line = Line.join Line.stanzaMark (tag :: args) ∧ (tag :: args).all isArbitraryString = true ∧
        step = .more (body stanzas tag args #[])) := by
  unfold next
  constructor
  · intro reads
    dsimp only at reads
    split at reads
    · obtain ⟨mac, footer, rfl⟩ : ∃ mac, footerLine line = .ok mac ∧ step = .complete ⟨stanzas.reverse, mac⟩ := by
        cases found : footerLine line with
        | error e =>
          rw [found] at reads
          cases reads
        | ok mac =>
          rw [found] at reads
          cases reads
          exact ⟨mac, rfl, rfl⟩
      exact .inl ⟨mac, footerLine_eq_ok_iff.1 footer, rfl⟩
    split at reads
    · cases found : stanzaLine line with
      | error e =>
        rw [found] at reads
        cases reads
      | ok tokens =>
        obtain ⟨tag, args⟩ := tokens
        rw [found] at reads
        cases reads
        obtain ⟨same, allowed⟩ := stanzaLine_eq_ok_iff.1 found
        exact .inr ⟨tag, args, same, allowed, rfl⟩
    · cases reads
  · dsimp only
    rintro (⟨mac, rfl, rfl⟩ | ⟨tag, args, rfl, allowed, rfl⟩)
    · have marked : Line.hasMark Line.footerMark (Line.ofMac mac) = true := Line.hasMark_join _ _
      rw [if_pos marked, footerLine_eq_ok_iff.2 rfl]
      rfl
    · have other : Line.hasMark Line.footerMark (Line.join Line.stanzaMark (tag :: args)) = false := by
        rw [Line.hasMark, Line.toList_join]
        rfl
      rw [if_neg (by simp [other]), if_pos (Line.hasMark_join _ _), stanzaLine_eq_ok_iff.2 ⟨rfl, allowed⟩]
      rfl

/-- A line of a body ends the body if it is not full. -/
theorem next_body_eq_ok_iff {stanzas : List Stanza} {tag line : String} {args : List String} {bytes : Array UInt8}
    {step : Step} : (body stanzas tag args bytes).next line = .ok step ↔
      ∃ part, line = Base64.encodeText part ∧
        ((part.length < Line.bodyBytes ∧ step = .more (element (⟨tag, args, (bytes ++ part).toList⟩ :: stanzas))) ∨
        (part.length = Line.bodyBytes ∧ step = .more (body stanzas tag args (bytes ++ part)))) := by
  unfold next
  dsimp only
  constructor
  · intro reads
    split at reads
    · cases reads
    · rename_i part found
      obtain ⟨rfl, le⟩ := Line.body_eq_some_iff.1 found
      split at reads
      · rename_i short
        cases reads
        exact ⟨part, rfl, .inl ⟨(Line.length_lt_bodyColumns_iff part).1 short, rfl⟩⟩
      · rename_i full
        cases reads
        rw [Line.length_lt_bodyColumns_iff] at full
        exact ⟨part, rfl, .inr ⟨Nat.le_antisymm le (Nat.not_lt.1 full), rfl⟩⟩
  · rintro ⟨part, rfl, ⟨short, rfl⟩ | ⟨full, rfl⟩⟩
    · rw [Line.body_eq_some_iff.2 ⟨rfl, Nat.le_of_lt short⟩]
      dsimp only
      rw [if_pos ((Line.length_lt_bodyColumns_iff part).2 short)]
    · rw [Line.body_eq_some_iff.2 ⟨rfl, Nat.le_of_eq full⟩]
      dsimp only
      rw [if_neg (by rw [Line.length_lt_bodyColumns_iff]; omega)]

/-- Lines that complete a reading, one after the other, and the header that they give. -/
inductive Accepts : HeaderReading → List String → Header → Prop
  | last {reading : HeaderReading} {line : String} {h : Header} (step : reading.next line = .ok (.complete h)) :
      Accepts reading [line] h
  | more {reading reading' : HeaderReading} {line : String} {lines : List String} {h : Header}
      (step : reading.next line = .ok (.more reading')) (rest : Accepts reading' lines h) :
      Accepts reading (line :: lines) h

/-- What a reading has read so far. -/
inductive Reached : HeaderReading → List String → Prop
  | version : Reached version []
  | element {stanzas : List Stanza} (writable : ∀ s ∈ stanzas, s.isWritable = true) :
      Reached (element stanzas) (Header.linesBeforeFooter stanzas.reverse)
  | body {stanzas : List Stanza} {tag : String} {args : List String} {bytes : Array UInt8} {full : List Bytes}
      (writable : ∀ s ∈ stanzas, s.isWritable = true) (allowed : (tag :: args).all isArbitraryString = true)
      (full_length : ∀ part ∈ full, part.length = Line.bodyBytes) (same : bytes.toList = full.flatten) :
      Reached (body stanzas tag args bytes) (Header.linesBeforeFooter stanzas.reverse ++
        Line.join Line.stanzaMark (tag :: args) :: full.map Base64.encodeText)

theorem linesBeforeFooter_append (stanzas : List Stanza) (s : Stanza) :
    Header.linesBeforeFooter (stanzas ++ [s]) = Header.linesBeforeFooter stanzas ++ s.lines := by
  simp [Header.linesBeforeFooter]

/-- A line that fits is the next one of what was read. -/
theorem reached_next {reading reading' : HeaderReading} {before : List String} {line : String}
    (reached : Reached reading before) (step : reading.next line = .ok (.more reading')) :
    Reached reading' (before ++ [line]) := by
  cases reached with
  | version =>
    unfold next at step
    dsimp only at step
    split at step
    · rename_i same
      cases step
      rw [same]
      exact .element (List.forall_mem_nil _)
    · cases step
  | element writable =>
    rcases next_element_eq_ok_iff.1 step with ⟨mac, _, other⟩ | ⟨tag, args, rfl, allowed, same⟩
    · cases other
    · cases same
      exact @Reached.body _ tag args #[] [] writable allowed (List.forall_mem_nil _) rfl
  | @body stanzas tag args bytes full writable allowed full_length same =>
    obtain ⟨part, rfl, ⟨short, same'⟩ | ⟨whole, same'⟩⟩ := next_body_eq_ok_iff.1 step
    · cases same'
      have content : (bytes ++ part).toList = full.flatten ++ part := by rw [Array.toList_appendList, same]
      have all : ∀ s ∈ (⟨tag, args, (bytes ++ part).toList⟩ : Stanza) :: stanzas, s.isWritable = true :=
        List.forall_mem_cons.2 ⟨allowed, writable⟩
      have reached := Reached.element all
      rw [List.reverse_cons, linesBeforeFooter_append, Stanza.lines, content, Line.ofBody_flatten full_length short] at reached
      rwa [content, List.append_assoc, List.cons_append]
    · cases same'
      have longer := List.forall_mem_append.2 ⟨full_length, List.forall_mem_singleton.2 whole⟩
      have content : (bytes ++ part).toList = (full ++ [part]).flatten := by
        rw [Array.toList_appendList, same, List.flatten_append, List.flatten_singleton]
      have reached := Reached.body writable allowed longer content
      rw [List.map_append, List.map_singleton] at reached
      rwa [List.append_assoc, List.cons_append]

theorem complete_next {reading : HeaderReading} {before : List String} {line : String} {h : Header}
    (reached : Reached reading before) (step : reading.next line = .ok (.complete h)) :
    h.lines = before ++ [line] ∧ h.isWritable = true := by
  cases reached with
  | version =>
    unfold next at step
    dsimp only at step
    split at step <;> cases step
  | element writable =>
    rcases next_element_eq_ok_iff.1 step with ⟨mac, rfl, same⟩ | ⟨tag, args, _, _, other⟩
    · cases same
      refine ⟨rfl, List.all_eq_true.2 ?_⟩
      intro s member
      exact writable s (List.mem_reverse.1 member)
    · cases other
  | body =>
    obtain ⟨part, _, ⟨_, other⟩ | ⟨_, other⟩⟩ := next_body_eq_ok_iff.1 step <;> cases other

theorem lines_of_accepts {reading : HeaderReading} {before lines : List String} {h : Header}
    (accepts : Accepts reading lines h) (reached : Reached reading before) :
    h.lines = before ++ lines ∧ h.isWritable = true := by
  induction accepts generalizing before with
  | last step => exact complete_next reached step
  | @more reading reading' line lines h step rest ih =>
    have next := ih (reached_next reached step)
    rwa [List.append_assoc, List.singleton_append] at next

theorem accepts_body {stanzas : List Stanza} {tag : String} {args : List String} {lines : List String} {h : Header}
    (before : Array UInt8) (bytes : Bytes)
    (rest : Accepts (element (⟨tag, args, (before ++ bytes).toList⟩ :: stanzas)) lines h) :
    Accepts (body stanzas tag args before) (Line.ofBody bytes ++ lines) h := by
  by_cases short : bytes.length < Line.bodyBytes
  · rw [Line.ofBody_of_short short]
    exact .more (next_body_eq_ok_iff.2 ⟨bytes, rfl, .inl ⟨short, rfl⟩⟩) rest
  · have full : (bytes.take Line.bodyBytes).length = Line.bodyBytes := List.length_take_of_le (Nat.not_lt.1 short)
    have cut : before ++ bytes.take Line.bodyBytes ++ bytes.drop Line.bodyBytes = before ++ bytes := by
      rw [← Array.toList_inj]
      simp
    rw [← List.take_append_drop Line.bodyBytes bytes, Line.ofBody_append full]
    refine .more (next_body_eq_ok_iff.2 ⟨bytes.take Line.bodyBytes, rfl, .inr ⟨full, rfl⟩⟩) ?_
    refine accepts_body (before ++ bytes.take Line.bodyBytes) (bytes.drop Line.bodyBytes) ?_
    rwa [cut]
termination_by bytes.length
decreasing_by
  simp only [List.length_drop, Line.bodyBytes] at *
  omega

theorem accepts_element {stanzas more : List Stanza} (writable : ∀ s ∈ more, s.isWritable = true) (mac : Block 32) :
    Accepts (element stanzas) (more.flatMap Stanza.lines ++ [Line.ofMac mac]) ⟨stanzas.reverse ++ more, mac⟩ := by
  induction more generalizing stanzas with
  | nil =>
    rw [List.append_nil]
    exact .last (next_element_eq_ok_iff.2 (.inl ⟨mac, rfl, rfl⟩))
  | cons s more ih =>
    have rest := @ih (s :: stanzas) fun t member => writable t (List.mem_cons_of_mem s member)
    rw [List.reverse_cons, List.append_assoc, List.singleton_append] at rest
    rw [List.flatMap_cons, List.append_assoc, Stanza.lines, List.cons_append]
    refine .more (next_element_eq_ok_iff.2 (.inr ⟨s.tag, s.args, rfl, writable s List.mem_cons_self, rfl⟩)) ?_
    refine accepts_body #[] s.body ?_
    simpa using rest

/-- The lines that give a header are those of the header, and every header that may be written has such lines. -/
theorem accepts_iff {lines : List String} {h : Header} :
    Accepts version lines h ↔ lines = h.lines ∧ h.isWritable = true := by
  constructor
  · intro accepts
    obtain ⟨same, writable⟩ := lines_of_accepts accepts .version
    exact ⟨same.symm, writable⟩
  · rintro ⟨rfl, writable⟩
    have first : version.next Header.versionLine = .ok (.more (element [])) := by
      rw [next, if_pos rfl]
    exact .more first (accepts_element (List.all_eq_true.1 writable) h.mac)

end HeaderReading

end AgeCrypt
