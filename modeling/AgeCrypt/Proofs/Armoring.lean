import AgeCrypt.Armor.Writer
import AgeCrypt.Proofs.ArmorLines
import AgeCrypt.Proofs.HeaderBytes
import AgeCrypt.Proofs.Recording
import AgeCrypt.Proofs.Unarmoring

/-!
# Armored files as they are written

An armored file is its marks around the Base64 of its bytes, line by line (`Armor.encode`), which is what an armor writer
writes (`ArmorWriter.records`, `ArmorWriter.finish_of_recorded`), and removing the armor gives the bytes back
(`Armor.unarmor_encode`).
-/

namespace AgeCrypt

open Buffered (takeLine)

namespace Armor

/-- A line of data as it is written. -/
def dataLine (line : Bytes) : Bytes := encodeLine line ++ newline

/-- An armored file as it is written. -/
def encode (bs : Bytes) : Bytes :=
  beginMarker ++ newline ++ (cut lineBytes bs).flatMap dataLine ++ endMarker ++ newline

/-- A line of data is read as the bytes that it holds. -/
theorem readLine_dataLine {part : Bytes} (le : part.length ≤ lineBytes) : readLine false (dataLine part) = .ok (.data part) := by
  have spells := spells_encodeLine le
  have text : stripEnding (dataLine part) = encodeLine part :=
    stripEnding_of_isEnding (spells.not_mem (by decide)) (.inl rfl)
  refine readLine_eq_data_iff.2 ⟨by simp [dataLine, newline], rfl, ?_⟩
  rwa [text]

theorem takeLine_dataLine (stop? : Option ChannelError) {part : Bytes} (le : part.length ≤ lineBytes) (rest : Bytes) :
    takeLine stop? (some ArmorReader.lineLimit) (dataLine part ++ rest) = .ok (dataLine part, rest) := by
  have inside : Buffered.newline ∉ encodeLine part := (spells_encodeLine le).not_mem (by decide)
  rw [dataLine, newline, List.append_assoc]
  refine Buffered.takeLine_of_line stop? inside ?_ rest
  rintro limit ⟨⟩
  rw [length_encodeLine]
  simp only [lineBytes] at le
  simp only [ArmorReader.lineLimit, columns]
  omega

/-- Lines that are cut from bytes are decoded to these bytes. -/
theorem decodeFrom_dataLines {full : List Bytes} {last : Bytes} (isCut : IsCut lineBytes full last) :
    decodeFrom none false ((full ++ [last]).flatMap dataLine ++ (endMarker ++ newline)) = (full.flatten ++ last, none) := by
  obtain ⟨full_length, last_length, alone⟩ := isCut
  induction full with
  | nil =>
    have ending : ∀ short, decodeFrom none short (endMarker ++ newline) = ([], none) := by
      intro short
      have taken : takeLine none (some ArmorReader.lineLimit) (endMarker ++ newline) = .ok (endMarker ++ newline, []) :=
        Buffered.takeLine_of_line none (by decide) (by rintro limit ⟨⟩; decide) []
      rw [decodeFrom_of_ending taken (by cases short <;> rfl)]
      rfl
    rw [List.nil_append, List.flatMap_singleton,
      decodeFrom_of_data (takeLine_dataLine none last_length _) (readLine_dataLine last_length), ending]
    simp
  | cons part full ih =>
    have whole := full_length part List.mem_cons_self
    have rest := ih (fun other member => full_length other (List.mem_cons_of_mem part member)) (fun none => by cases alone none)
    have more : (false || decide (part.length < lineBytes)) = false := by simp [whole]
    rw [List.cons_append, List.flatMap_cons, List.append_assoc,
      decodeFrom_of_data (takeLine_dataLine none (Nat.le_of_eq whole) _) (readLine_dataLine (Nat.le_of_eq whole)), more, rest,
      List.flatten_cons, List.append_assoc]

/-- Removing the armor gives back what was armored. -/
theorem unarmor_encode (bs : Bytes) : unarmor none (encode bs) = (bs, none) := by
  obtain ⟨full, last, lines, isCut, rfl⟩ := exists_cut lineBytes_pos bs
  have taken : ∀ rest, takeLine none (some ArmorReader.openingLimit) (beginMarker ++ (newline ++ rest)) =
      .ok (beginMarker ++ newline, rest) :=
    fun rest => Buffered.takeLine_of_line none (by decide) (by rintro limit ⟨⟩; decide) rest
  have opens : opensArmor (beginMarker ++ newline) = true := by decide
  have skips : ∀ rest, skipBeginning none (beginMarker ++ newline) rest 0 = .ok rest := by
    intro rest
    rw [skipBeginning, dif_neg (by decide), if_pos (by decide)]
  rw [encode, lines]
  simp only [List.append_assoc, unarmor, taken, opens, skips, if_true]
  exact decodeFrom_dataLines isCut

/-- A file that does not begin as an armored one is left as it is. -/
theorem unarmor_of_not_opensArmor {stop? : Option ChannelError} {bs line rest : Bytes}
    (taken : takeLine stop? (some ArmorReader.openingLimit) bs = .ok (line, rest)) (other : opensArmor line = false) :
    unarmor stop? bs = (bs, stop?) := by
  simp [unarmor, taken, other]

end Armor

/-- A file as it is written in a format. -/
def Format.encode : Format → Bytes → Bytes
  | .binary, bs => bs
  | .armored, bs => Armor.encode bs

/-- The first line of a file that begins with a header is the version line. -/
theorem Header.takeLine_opening (h : Header) (rest : Bytes) :
    ∃ behind, takeLine none (some ArmorReader.openingLimit) (h.toBytes ++ rest) =
      .ok (utf8 Header.versionLine ++ Armor.newline, behind) := by
  have first : h.toBytes ++ rest = utf8 Header.versionLine ++ Buffered.newline ::
      ((h.recipients.flatMap Stanza.lines ++ [Line.ofMac h.mac]).flatMap Line.toBytes ++ rest) := by
    rw [Header.toBytes_eq_lines, Header.lines, Header.linesBeforeFooter, List.cons_append, List.flatMap_cons, Line.toBytes]
    simp only [List.append_assoc, List.cons_append, List.nil_append]
  have fits : ∀ limit, some ArmorReader.openingLimit = some limit → (utf8 Header.versionLine).length < limit := by
    rintro limit ⟨⟩
    decide
  rw [first]
  exact ⟨_, Buffered.takeLine_of_line none (by decide) fits _⟩

/-- A file in either format is read as the same bytes, if it begins with a header. -/
theorem unarmor_format (format : Format) (h : Header) (rest : Bytes) :
    Armor.unarmor none (format.encode (h.toBytes ++ rest)) = (h.toBytes ++ rest, none) := by
  cases format with
  | armored => exact Armor.unarmor_encode _
  | binary =>
    obtain ⟨behind, taken⟩ := h.takeLine_opening rest
    exact Armor.unarmor_of_not_opensArmor taken (by decide)

namespace ArmorWriter
variable {ω : Type} [Writer ω] {room : Bytes → Prop} {recorded : ω → Bytes → Prop} {before : Bytes} {format : Format}

/-- Lines that were passed on, behind the mark of the beginning. -/
def Passed (recorded : ω → Bytes → Prop) (before : Bytes) (inner : ω) (full : List Bytes) : Prop :=
  recorded inner (before ++ (Armor.beginMarker ++ Armor.newline ++ full.flatMap Armor.dataLine))

omit [Writer ω] in
theorem dataLines_concat (before : Bytes) (full : List Bytes) (line : Bytes) :
    before ++ (Armor.beginMarker ++ Armor.newline ++ (full ++ [line]).flatMap Armor.dataLine) =
      before ++ (Armor.beginMarker ++ Armor.newline ++ full.flatMap Armor.dataLine) ++
        [Armor.encodeLine line, Armor.newline].flatten := by
  simp [Armor.dataLine]

theorem encode_of_isCut (before : Bytes) {full : List Bytes} {last : Bytes} (isCut : IsCut Armor.lineBytes full last) :
    before ++ Format.armored.encode (full.flatten ++ last) =
      before ++ (Armor.beginMarker ++ Armor.newline ++ full.flatMap Armor.dataLine) ++
        [Armor.encodeLine last, Armor.newline, Armor.endMarker, Armor.newline].flatten := by
  rw [Format.encode, Armor.encode, cut_flatten isCut]
  simp [Armor.dataLine]

theorem passes (records : Writer.Records room recorded) (before : Bytes) :
    Passes (fun full => room (before ++ (Armor.beginMarker ++ Armor.newline ++ full.flatMap Armor.dataLine)))
      (Passed recorded before) passLine Armor.lineBytes := by
  intro inner full line passed _
  unfold Passed
  dsimp only
  rw [dataLines_concat]
  exact Writer.writeEach_of_records records passed [Armor.encodeLine line, Armor.newline]

/-- The bytes are written as they are, or cut into lines, of which all but the last were passed on. -/
def Recorded (recorded : ω → Bytes → Prop) (before : Bytes) : Format → ArmorWriter ω → Bytes → Prop
  | .binary, w, bs => w.format = .binary ∧ recorded w.inner (before ++ bs)
  | .armored, w, bs => w.format = .armored ∧
    ∃ full, Passed recorded before w.inner full ∧ IsCut Armor.lineBytes full w.line ∧ bs = full.flatten ++ w.line

theorem write_of_armored (records : Writer.Records room recorded) {w : ArmorWriter ω} {bs : Bytes}
    (holds : Recorded recorded before .armored w bs) (part : Bytes) :
    (∃ w', w.write part = (.ok part.length, w') ∧ Recorded recorded before .armored w' (bs ++ part)) ∨
    (∃ e w', w.write part = (.error e, w') ∧ ¬ ∀ bs, room bs) := by
  obtain ⟨armored, full, passed, isCut, rfl⟩ := holds
  rw [write, armored]
  dsimp only
  rcases gather_of_passes Armor.lineBytes_pos (passes records before) passed isCut part with
    ⟨s, full', held, step, passed', isCut', cut⟩ | ⟨e, s, held, full', tail, step, refused, _⟩
  · rw [step]
    exact .inl ⟨_, rfl, rfl, full', passed', isCut', cut.symm⟩
  · rw [step]
    exact .inr ⟨e, _, rfl, fun all => refused (all _)⟩

/-- A flush passes on what is behind, and keeps what is held. -/
theorem flush_of_recorded (flushes : Writer.Flushes recorded) {w : ArmorWriter ω} {bs : Bytes} (holds : Recorded recorded before format w bs) :
    ∃ w', Writer.flush w = (.ok (), w') ∧ Recorded recorded before format w' bs := by
  have same : Writer.flush w = ((Writer.flush w.inner).1, { w with inner := (Writer.flush w.inner).2 }) := rfl
  rw [same]
  cases format with
  | binary =>
    obtain ⟨binary, written⟩ := holds
    obtain ⟨inner, step, behind⟩ := flushes written
    rw [step]
    exact ⟨_, rfl, binary, behind⟩
  | armored =>
    obtain ⟨armored, full, passed, isCut, rfl⟩ := holds
    obtain ⟨inner, step, behind⟩ := flushes passed
    rw [step]
    exact ⟨_, rfl, armored, full, behind, isCut, rfl⟩

/-- An armor writer records the file that it is given. -/
theorem records (records : Writer.Records room recorded) (before : Bytes) (format : Format) :
    Writer.Records (fun _ => ∀ bs, room bs) (Recorded recorded before format) where
  room_of_append := fun all => all
  write_ok := by
    intro w w' bs part n holds writes
    change w.write part = _ at writes
    cases format with
    | binary =>
      obtain ⟨binary, written⟩ := holds
      rw [write, binary] at writes
      dsimp only at writes
      cases step : Writer.write w.inner part with | mk result inner => ?_
      rw [step] at writes
      cases writes
      have behind := records.write_ok written step
      rw [List.append_assoc] at behind
      exact ⟨rfl, behind⟩
    | armored =>
      rcases write_of_armored records holds part with ⟨w₁, ok, behind⟩ | ⟨e, w₁, fails, _⟩
      · rw [writes] at ok
        cases ok
        rwa [List.take_length]
      · rw [writes] at fails
        cases fails
  write_all := by
    intro w bs part holds all
    show ∃ w', w.write part = _
    cases format with
    | binary =>
      obtain ⟨binary, written⟩ := holds
      obtain ⟨inner, step⟩ := @Writer.Records.write_all _ _ _ _ records _ _ part written (all _)
      rw [write, binary]
      dsimp only
      rw [step]
      exact ⟨_, rfl⟩
    | armored =>
      rcases write_of_armored records holds part with ⟨w₁, ok, _⟩ | ⟨e, w₁, _, full⟩
      · exact ⟨w₁, ok⟩
      · exact absurd all full
  flush_ok := flush_of_recorded records.flushes

/-- Behind the mark of the beginning, no line is passed on yet. -/
theorem start_of_writeEach {inner inner' : ω}
    (step : Writer.writeEach inner [Armor.beginMarker, Armor.newline] = (.ok (), inner'))
    (behind : recorded inner' (before ++ [Armor.beginMarker, Armor.newline].flatten)) :
    start inner .armored = (.ok (), ⟨.armored, inner', []⟩) ∧ Recorded recorded before .armored ⟨.armored, inner', []⟩ [] := by
  constructor
  · simp only [start, step]
  · exact ⟨rfl, [], by simpa [Passed] using behind, .nil _, rfl⟩

/-- The last line that is held and the mark of the end complete the file. -/
theorem finish_of_writeEach {w : ArmorWriter ω} {bs : Bytes} (holds : Recorded recorded before .armored w bs) :
    ∃ whole, recorded w.inner whole ∧ w.line.length ≤ Armor.lineBytes ∧
      w.finish = (match Writer.writeEach w.inner
        [Armor.encodeLine w.line, Armor.newline, Armor.endMarker, Armor.newline] with
        | (result, inner) => (result, { w with inner })) ∧
      before ++ Format.armored.encode bs =
        whole ++ [Armor.encodeLine w.line, Armor.newline, Armor.endMarker, Armor.newline].flatten := by
  obtain ⟨armored, full, passed, isCut, rfl⟩ := holds
  exact ⟨_, passed, isCut.last_length, by rw [finish, armored], encode_of_isCut before isCut⟩

/-- A file begins with the mark in the armored format. -/
theorem start_of_records (records : Writer.Records room recorded) {inner : ω} (written : recorded inner before) :
    (∃ w, start inner format = (.ok (), w) ∧ Recorded recorded before format w []) ∨
    (∃ e w, start inner format = (.error e, w) ∧ ¬ ∀ bs, room bs) := by
  cases format with
  | binary => exact .inl ⟨_, rfl, rfl, by rwa [List.append_nil]⟩
  | armored =>
    rcases Writer.writeEach_of_records records written [Armor.beginMarker, Armor.newline] with
      ⟨inner', step, behind⟩ | ⟨e, inner', step, full⟩
    · exact .inl ⟨_, start_of_writeEach step behind⟩
    · simp only [start, step]
      exact .inr ⟨e, _, rfl, fun all => full (all _)⟩

/-- When a file is finished, it is written in its format. -/
theorem finish_of_recorded (records : Writer.Records room recorded) {w : ArmorWriter ω} {bs : Bytes}
    (holds : Recorded recorded before format w bs) :
    (∃ w', w.finish = (.ok (), w') ∧ recorded w'.inner (before ++ format.encode bs)) ∨
    (∃ e w', w.finish = (.error e, w') ∧ ¬ ∀ bs, room bs) := by
  cases format with
  | binary =>
    obtain ⟨binary, written⟩ := holds
    rw [finish, binary]
    exact .inl ⟨_, rfl, written⟩
  | armored =>
    obtain ⟨whole, passed, _, finishes, file⟩ := finish_of_writeEach holds
    rw [finishes, file]
    rcases Writer.writeEach_of_records records passed
      [Armor.encodeLine w.line, Armor.newline, Armor.endMarker, Armor.newline] with ⟨inner, step, behind⟩ | ⟨e, inner, step, none⟩
    · simp only [step]
      exact .inl ⟨_, rfl, behind⟩
    · simp only [step]
      exact .inr ⟨e, _, rfl, fun all => none (all _)⟩

end ArmorWriter

end AgeCrypt
