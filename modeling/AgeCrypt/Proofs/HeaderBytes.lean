import AgeCrypt.Proofs.HeaderLines
import AgeCrypt.Proofs.Lines

/-!
# Headers as bytes

Reading a header succeeds exactly if the input begins with a header as it is written, and what is left is behind that
(`Header.read_of_holds`, `Header.read_toBytes`). The part of the received bytes that the MAC has to cover, through the
mark of the footer, is found without parsing them (`Header.signedPart`), and is the part that is covered
(`Header.signedPart_toBytes`).
-/

namespace AgeCrypt

open Buffered (newline throughNewline)

/-- A line as it is written. -/
def Line.toBytes (line : String) : Bytes := utf8 line ++ [newline]

theorem Line.utf8_join (mark : String) (ts : List String) :
    utf8 (join mark ts) = utf8 mark ++ ts.flatMap fun t => utf8 " " ++ utf8 t := by
  have spaced : ∀ t : String, (' ' :: t.toList).flatMap String.utf8EncodeChar = utf8 " " ++ utf8 t := by
    intro t
    rw [List.flatMap_cons, ← utf8_eq_flatMap]
    rfl
  rw [utf8_eq_flatMap, toList_join, List.flatMap_append, ← utf8_eq_flatMap, List.flatMap_assoc, funext spaced]

theorem Stanza.toBytes_eq_lines (s : Stanza) : s.toBytes = s.lines.flatMap Line.toBytes := by
  have spaced : ∀ t : String, [" ", t].flatMap utf8 = utf8 " " ++ utf8 t := by simp
  have args : ∀ ts : List String, (ts.flatMap fun t => [" ", t]).flatMap utf8 = ts.flatMap fun t => utf8 " " ++ utf8 t := by
    intro ts
    rw [List.flatMap_assoc, funext spaced]
  have ended : ∀ line : String, [line, "\n"].flatMap utf8 = Line.toBytes line := by
    intro line
    rw [Line.toBytes, List.flatMap_cons, List.flatMap_singleton]
    rfl
  have body : ((Line.ofBody s.body).flatMap fun line => [line, "\n"]).flatMap utf8 =
      (Line.ofBody s.body).flatMap Line.toBytes := by
    rw [List.flatMap_assoc, funext ended]
  rw [toBytes, parts, lines, List.flatMap_cons, ← body, Line.toBytes, Line.utf8_join, List.flatMap_append,
    List.flatMap_append, List.flatMap_append, args, List.flatMap_cons]
  simp only [List.flatMap_cons, List.flatMap_nil, List.append_nil, List.append_assoc]
  rfl

namespace Header

/-- What the MAC covers is the lines before the footer and its mark. -/
theorem signedBytes_eq_lines (recipients : List Stanza) :
    signedBytes recipients = (linesBeforeFooter recipients).flatMap Line.toBytes ++ utf8 Line.footerMark := by
  have stanzas : (recipients.flatMap Stanza.parts).flatMap utf8 = (recipients.flatMap Stanza.lines).flatMap Line.toBytes := by
    rw [List.flatMap_assoc, List.flatMap_assoc, ← funext Stanza.toBytes_eq_lines]
    rfl
  rw [signedBytes, partsBeforeMac, List.flatMap_append, List.flatMap_append, stanzas, linesBeforeFooter, List.flatMap_cons]
  simp only [List.flatMap_cons, List.flatMap_nil, List.append_nil, List.append_assoc]
  rfl

theorem toBytes_eq_signedBytes (h : Header) :
    h.toBytes = signedBytes h.recipients ++ utf8 " " ++ utf8 (Base64.encodeText h.mac.bytes) ++ [newline] := by
  rw [toBytes, parts, List.flatMap_append, ← signedBytes]
  simp only [List.flatMap_cons, List.flatMap_nil, List.append_nil, List.append_assoc]
  rfl

theorem toBytes_eq_lines (h : Header) : h.toBytes = h.lines.flatMap Line.toBytes := by
  rw [toBytes_eq_signedBytes, signedBytes_eq_lines, lines, List.flatMap_append, Line.ofMac, List.flatMap_singleton,
    Line.toBytes, Line.utf8_join, List.flatMap_singleton]
  simp only [List.append_assoc]

end Header

theorem isPrintable_of_isArbitraryString {s : String} (arbitrary : isArbitraryString s = true) : IsPrintable s.toList := by
  intro c member
  simp only [isArbitraryString, Bool.and_eq_true, List.all_eq_true, decide_eq_true_eq] at arbitrary
  obtain ⟨low, high⟩ := arbitrary.2 c member
  exact ⟨by omega, high⟩

theorem Line.isPrintable_join {mark : String} {ts : List String} (printable : IsPrintable mark.toList)
    (tokens : ∀ t ∈ ts, IsPrintable t.toList) : IsPrintable (join mark ts).toList := by
  rw [toList_join]
  refine printable.append fun c member => ?_
  obtain ⟨t, found, inside⟩ := List.mem_flatMap.1 member
  rcases List.mem_cons.1 inside with rfl | inside
  · decide
  · exact tokens t found c inside

theorem Line.exists_of_mem_ofBody {line : String} {bs : Bytes} (member : line ∈ ofBody bs) :
    ∃ part, line = Base64.encodeText part := by
  fun_induction ofBody bs with
  | case1 bs part short => exact ⟨part, List.mem_singleton.1 member⟩
  | case2 bs part full ih =>
    rcases List.mem_cons.1 member with rfl | member
    · exact ⟨part, rfl⟩
    · exact ih member

/-- A line before the footer: it is printable and does not begin as the footer does. -/
def IsInner (line : String) : Prop :=
  IsPrintable line.toList ∧ ∀ rest, ¬ utf8 Line.footerMark <+: Line.toBytes line ++ rest

theorem isInner_encodeText (bs : Bytes) : IsInner (Base64.encodeText bs) := by
  have printable : IsPrintable (Base64.encodeText bs).toList := by
    rw [Base64.toList_encodeText]
    exact Base64.isPrintable_encode bs
  refine ⟨printable, fun rest begins => ?_⟩
  rw [Line.toBytes, utf8_of_printable printable, Base64.toList_encodeText] at begins
  cases cs : Base64.encode bs with
  | nil =>
    rw [cs] at begins
    exact absurd (List.cons_prefix_cons.1 begins).1 (by decide)
  | cons c cs' =>
    obtain ⟨low, high, differ, _⟩ := Base64.visible_of_mem_encode (cs ▸ List.mem_cons_self : c ∈ Base64.encode bs)
    rw [cs] at begins
    have same : (45 : UInt8) = UInt8.ofNat c.toNat := (List.cons_prefix_cons.1 begins).1
    have numbers := congrArg UInt8.toNat same
    rw [UInt8.toNat_ofNat', Nat.mod_eq_of_lt (by omega)] at numbers
    exact differ (Char.toNat_inj.1 numbers.symm)

theorem Stanza.isInner_of_mem_lines {s : Stanza} (writable : s.isWritable = true) {line : String} (member : line ∈ s.lines) :
    IsInner line := by
  rcases List.mem_cons.1 member with rfl | member
  · constructor
    · have arbitrary : (s.tag :: s.args).all isArbitraryString = true := writable
      refine Line.isPrintable_join (isPrintable_of_all (by decide)) fun t member => ?_
      exact isPrintable_of_isArbitraryString (List.all_eq_true.1 arbitrary t member)
    · intro rest begins
      rw [Line.toBytes, Line.utf8_join] at begins
      exact absurd (List.cons_prefix_cons.1 (List.cons_prefix_cons.1 begins).2).1 (by decide)
  · obtain ⟨part, rfl⟩ := Line.exists_of_mem_ofBody member
    exact isInner_encodeText part

namespace Header

theorem isInner_of_mem {recipients : List Stanza} (writable : ∀ s ∈ recipients, s.isWritable = true) {line : String}
    (member : line ∈ linesBeforeFooter recipients) : IsInner line := by
  rcases List.mem_cons.1 member with rfl | member
  · refine ⟨isPrintable_of_all (by decide), fun rest begins => ?_⟩
    exact absurd (List.cons_prefix_cons.1 begins).1 (by decide)
  · obtain ⟨s, found, inside⟩ := List.mem_flatMap.1 member
    exact Stanza.isInner_of_mem_lines (writable s found) inside

theorem newline_not_mem {line : String} (printable : IsPrintable line.toList) : newline ∉ utf8 line := by
  rw [utf8_of_printable printable]
  exact not_mem_charBytes printable (by decide)

theorem newline_not_mem_of_mem_lines {h : Header} (writable : h.isWritable = true) {line : String} (member : line ∈ h.lines) :
    newline ∉ utf8 line := by
  refine newline_not_mem ?_
  rcases List.mem_append.1 member with member | member
  · exact (isInner_of_mem (List.all_eq_true.1 writable) member).1
  · rw [List.mem_singleton.1 member]
    refine Line.isPrintable_join (isPrintable_of_all (by decide)) fun t member => ?_
    rw [List.mem_singleton.1 member, Base64.toList_encodeText]
    exact Base64.isPrintable_encode _

/-- The bytes through the mark of the first line that begins as a footer does. -/
def signedPart (bs : Bytes) : Bytes :=
  if bs = [] then []
  else if (utf8 Line.footerMark).isPrefixOf bs then utf8 Line.footerMark
  else throughNewline bs ++ signedPart (bs.drop (throughNewline bs).length)
termination_by bs.length
decreasing_by
  rename_i some _
  have line : (throughNewline bs).length ≠ 0 := fun none =>
    some (Buffered.throughNewline_eq_nil (List.length_eq_zero_iff.1 none))
  have positive : bs.length ≠ 0 := fun none => some (List.length_eq_zero_iff.1 none)
  simp only [List.length_drop]
  omega

theorem signedPart_footer (rest : Bytes) : signedPart (utf8 Line.footerMark ++ rest) = utf8 Line.footerMark := by
  have some : utf8 Line.footerMark ++ rest ≠ [] := List.cons_ne_nil _ _
  rw [signedPart, if_neg some, if_pos (List.isPrefixOf_iff_prefix.2 (List.prefix_append _ _))]

theorem signedPart_line {line : String} (inner : IsInner line) (rest : Bytes) :
    signedPart (Line.toBytes line ++ rest) = Line.toBytes line ++ signedPart rest := by
  have some : Line.toBytes line ++ rest ≠ [] := by simp [Line.toBytes]
  have first : throughNewline (Line.toBytes line ++ rest) = Line.toBytes line := by
    rw [Line.toBytes, List.append_assoc]
    exact Buffered.throughNewline_of_line rest (newline_not_mem inner.1)
  rw [signedPart, if_neg some, if_neg (fun begins => inner.2 rest (List.isPrefixOf_iff_prefix.1 begins)), first,
    List.drop_left]

theorem signedPart_lines {lines : List String} (inner : ∀ line ∈ lines, IsInner line) (rest : Bytes) :
    signedPart (lines.flatMap Line.toBytes ++ rest) = lines.flatMap Line.toBytes ++ signedPart rest := by
  induction lines with
  | nil => rfl
  | cons line lines ih =>
    rw [List.flatMap_cons, List.append_assoc, signedPart_line (inner line List.mem_cons_self),
      ih fun other member => inner other (List.mem_cons_of_mem line member), List.append_assoc]

/-- The signed part of a file is what the MAC covers of its header. -/
theorem signedPart_toBytes {h : Header} (writable : h.isWritable = true) (rest : Bytes) :
    signedPart (h.toBytes ++ rest) = signedBytes h.recipients := by
  have inner : ∀ line ∈ linesBeforeFooter h.recipients, IsInner line :=
    fun line member => isInner_of_mem (List.all_eq_true.1 writable) member
  rw [toBytes_eq_signedBytes, signedBytes_eq_lines]
  simp only [List.append_assoc]
  rw [signedPart_lines inner, signedPart_footer]

end Header

section
variable {ρ : Type} [Reader ρ] {stop? : Option ChannelError} {r r' : Buffered ρ}

theorem HeaderReading.eq_toBytes_of_lineText? {line : Bytes} {text : String} (isText : lineText? line = some text) :
    line = Line.toBytes text := by
  unfold lineText? at isText
  split at isText
  · rename_i ends
    obtain ⟨text', rfl⟩ := List.getLast?_eq_some_iff.1 ends
    rw [List.dropLast_concat] at isText
    rw [Line.toBytes, ofUtf8?_eq_some_iff.1 isText]
  · cases isText

theorem HeaderReading.lineText?_toBytes (text : String) : lineText? (Line.toBytes text) = some text := by
  rw [lineText?, Line.toBytes, if_pos List.getLast?_concat, List.dropLast_concat, ofUtf8?_utf8]

theorem HeaderReading.readFrom_of_line {line : String} (reading : HeaderReading)
    (read : r.readLine none = (.ok (Line.toBytes line), r')) : reading.readFrom r =
      match reading.next line with
      | .error e => (.error (.header e), r')
      | .ok (.complete h) => (.ok h, r')
      | .ok (.more reading') => reading'.readFrom r' := by
  rw [readFrom]
  split
  · rename_i fails
    rw [read] at fails
    cases fails
  · rename_i ok
    rw [read] at ok
    cases ok
    split
    · rename_i noText
      rw [lineText?_toBytes] at noText
      cases noText
    · rename_i isText
      rw [lineText?_toBytes] at isText
      cases isText
      rfl

/-- A header that was read stands at the start of the input, line by line. -/
theorem HeaderReading.accepts_of_readFrom {reading : HeaderReading} {bs : Bytes} {h : Header}
    (holds : r.Holds stop? bs) (reads : reading.readFrom r = (.ok h, r')) :
    ∃ lines rest, bs = lines.flatMap Line.toBytes ++ rest ∧ Accepts reading lines h ∧ r'.Holds stop? rest := by
  fun_induction readFrom reading r generalizing bs with
  | case1 => cases reads
  | case2 => cases reads
  | case3 => cases reads
  | case4 reading r line s read text isText h step =>
    cases reads
    obtain ⟨rest, takes, left⟩ := Buffered.takeLine_of_readLine_ok holds read
    have cut := Buffered.append_of_takeLine takes
    rw [eq_toBytes_of_lineText? isText] at cut
    exact ⟨[text], rest, by rw [List.flatMap_singleton, cut], .last step, left⟩
  | case5 reading r line s read text isText reading' step ih =>
    obtain ⟨rest, takes, left⟩ := Buffered.takeLine_of_readLine_ok holds read
    have cut := Buffered.append_of_takeLine takes
    rw [eq_toBytes_of_lineText? isText] at cut
    obtain ⟨lines, rest', same, accepts, left⟩ := ih left reads
    refine ⟨text :: lines, rest', ?_, .more step accepts, left⟩
    rw [List.flatMap_cons, List.append_assoc, ← same, cut]

/-- A whole line is read, since no failure can come before its end. -/
theorem Line.readLine_toBytes {line : String} {after : Bytes} (inside : newline ∉ utf8 line)
    (holds : r.Holds stop? (Line.toBytes line ++ after)) :
    ∃ r', r.readLine none = (.ok (Line.toBytes line), r') ∧ r'.Holds stop? after := by
  rw [Line.toBytes, List.append_assoc] at holds
  exact Buffered.readLine_of_takeLine holds (Buffered.takeLine_of_line stop? inside (fun _ none => by cases none) after)

/-- Lines that give a header are read from the start of an input. -/
theorem HeaderReading.readFrom_of_accepts {reading : HeaderReading} {lines : List String} {rest : Bytes} {h : Header}
    (accepts : Accepts reading lines h) (inside : ∀ line ∈ lines, newline ∉ utf8 line)
    (holds : r.Holds stop? (lines.flatMap Line.toBytes ++ rest)) :
    ∃ r', reading.readFrom r = (.ok h, r') ∧ r'.Holds stop? rest := by
  induction accepts generalizing r with
  | @last reading line h step =>
    rw [List.flatMap_singleton] at holds
    obtain ⟨r', ok, left⟩ := Line.readLine_toBytes (inside line List.mem_cons_self) holds
    refine ⟨r', ?_, left⟩
    rw [readFrom_of_line reading ok, step]
  | @more reading reading' line lines h step _ ih =>
    rw [List.flatMap_cons, List.append_assoc] at holds
    obtain ⟨r₁, ok, left⟩ := Line.readLine_toBytes (inside line List.mem_cons_self) holds
    obtain ⟨r', rest, left⟩ := ih (fun other member => inside other (List.mem_cons_of_mem line member)) left
    refine ⟨r', ?_, left⟩
    rw [readFrom_of_line reading ok, step]
    exact rest

namespace Header

/-- A header that was read is one that may be written, and the input begins with it as it is written. -/
theorem read_of_holds {bs : Bytes} {h : Header} (holds : r.Holds stop? bs) (reads : read r = (.ok h, r')) :
    h.isWritable = true ∧ ∃ rest, bs = h.toBytes ++ rest ∧ r'.Holds stop? rest := by
  obtain ⟨lines, rest, same, accepts, left⟩ := HeaderReading.accepts_of_readFrom holds reads
  obtain ⟨rfl, writable⟩ := HeaderReading.accepts_iff.1 accepts
  exact ⟨writable, rest, by rw [same, toBytes_eq_lines], left⟩

/-- A header that may be written is read from where it was written. -/
theorem read_toBytes {h : Header} (writable : h.isWritable = true) {rest : Bytes} (holds : r.Holds stop? (h.toBytes ++ rest)) :
    ∃ r', read r = (.ok h, r') ∧ r'.Holds stop? rest := by
  rw [toBytes_eq_lines] at holds
  exact HeaderReading.readFrom_of_accepts (HeaderReading.accepts_iff.2 ⟨rfl, writable⟩)
    (fun line member => newline_not_mem_of_mem_lines writable member) holds

end Header

end

end AgeCrypt
