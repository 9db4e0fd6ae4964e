import AgeCrypt.Proofs.ArmorGrammar
import AgeCrypt.Proofs.RefusedWrites

/-!
# Armored files that were changed on the way

However bytes are brought to an armor writer, it writes the same file: the Base64 of all of them in lines of 64 columns
between the marks (`Armor.Wrapped`). On its way a file may get other ends of lines, lines of whitespace before it and
whitespace behind it (`Armor.Arrives`). It is a well-formed armored file still (`Armor.envelope_of_arrives`).

Main statement: `Armor.readsOut_of_written`.
-/

namespace AgeCrypt

/-- Behind groups of three bytes, the others are encoded as if they stood alone. -/
theorem Base64.encode_append {part : Bytes} (whole : part.length % 3 = 0) (rest : Bytes) :
    encode (part ++ rest) = encode part ++ encode rest := by
  have bits : byteBits (part ++ rest) = byteBits part ++ byteBits rest := List.flatMap_append
  have groups : (byteBits part).length % 6 = 0 := by
    rw [length_byteBits]
    omega
  rw [encode, digits, bits, pieces_append groups, List.map_append, List.map_append]
  rfl

namespace Armor

/-- The lines of Base64 of some bytes, in their order: the Base64 of all bytes without padding, cut after each 64
    columns. The last line is empty only if there are no bytes. -/
structure Wrapped (bs : Bytes) (lines : List Bytes) (last : Bytes) : Prop where
  content : lines.flatten ++ last = encodeLine bs
  full : ∀ line ∈ lines, line.length = 64
  short : last.length ≤ 64
  some : last = [] → bs = []
  unpadded : (61 : UInt8) ∉ encodeLine bs

theorem encodeLine_flatten {full : List Bytes} (full_length : ∀ part ∈ full, part.length = lineBytes) (last : Bytes) :
    encodeLine (full.flatten ++ last) = (full.map encodeLine).flatten ++ encodeLine last := by
  induction full with
  | nil => rfl
  | cons part full ih =>
    have rest := ih fun other member => full_length other (List.mem_cons_of_mem part member)
    have whole : part.length % 3 = 0 := by
      rw [full_length part List.mem_cons_self]
      rfl
    rw [List.flatten_cons, List.append_assoc, encodeLine, Base64.encode_append whole, charBytes, List.map_append]
    rw [List.map_cons, List.flatten_cons, List.append_assoc, ← rest]
    rfl

/-- The lines of parts of 48 bytes are those of the Base64 of all bytes. -/
theorem wrapped_of_isCut {full : List Bytes} {last : Bytes} (isCut : IsCut lineBytes full last) :
    Wrapped (full.flatten ++ last) (full.map encodeLine) (encodeLine last) where
  content := (encodeLine_flatten isCut.full_length last).symm
  full := by
    intro line member
    obtain ⟨part, inside, rfl⟩ := List.mem_map.1 member
    rw [length_encodeLine, isCut.full_length part inside]
    rfl
  short := by
    have le := isCut.last_length
    rw [length_encodeLine]
    simp only [lineBytes] at le
    omega
  some := by
    intro none
    have size := length_encodeLine last
    rw [none, List.length_nil] at size
    have empty : last = [] := List.length_eq_zero_iff.1 (by omega)
    rw [isCut.alone empty, empty]
    rfl
  unpadded := fun member => (visible_of_mem_encodeLine member).2.2.2 rfl

/-- A file in which a carriage return comes before every newline. -/
def withReturns (bs : Bytes) : Bytes := bs.flatMap fun b => if b = 10 then [13, 10] else [b]

/-- A file as it may arrive: with the ends of lines that it had or with others throughout, behind lines of whitespace and
    with whitespace behind it. -/
def Arrives (file text : Bytes) : Prop :=
  ∃ leading same trailing, text = leading ++ same ++ trailing ∧ Leading leading ∧
    (same = file ∨ same = withReturns file) ∧ isWhitespace trailing = true ∧ trailing.length ≤ 1024

/-- An armored file with an end for each of its lines. -/
def encodeWith (ending : Bytes) (bs : Bytes) : Bytes :=
  beginMarker ++ ending ++ ((cut lineBytes bs).flatMap fun part => encodeLine part ++ ending) ++ endMarker ++ ending

theorem withReturns_append (before after : Bytes) :
    withReturns (before ++ after) = withReturns before ++ withReturns after := List.flatMap_append

theorem withReturns_of_not_mem {bs : Bytes} (inside : (10 : UInt8) ∉ bs) : withReturns bs = bs := by
  induction bs with
  | nil => rfl
  | cons b bs ih =>
    obtain ⟨differ, rest⟩ := not_or.1 (mt List.mem_cons.2 inside)
    have step : withReturns (b :: bs) = (if b = 10 then [13, 10] else [b]) ++ withReturns bs := List.flatMap_cons
    rw [step, if_neg (Ne.symm differ), ih rest]
    rfl

theorem newline_not_mem_encodeLine (part : Bytes) : (10 : UInt8) ∉ encodeLine part :=
  fun member => absurd (visible_of_mem_encodeLine member).1 (by decide)

theorem withReturns_encode (bs : Bytes) : withReturns (encode bs) = encodeWith [13, 10] bs := by
  have lines : ∀ parts : List Bytes, withReturns (parts.flatMap dataLine) =
      parts.flatMap fun part => encodeLine part ++ [13, 10] := by
    intro parts
    induction parts with
    | nil => rfl
    | cons part parts ih =>
      rw [List.flatMap_cons, withReturns_append, ih, dataLine, withReturns_append,
        withReturns_of_not_mem (newline_not_mem_encodeLine part)]
      rfl
  rw [encode, withReturns_append, withReturns_append, withReturns_append, withReturns_append, lines,
    withReturns_of_not_mem (by decide : (10 : UInt8) ∉ beginMarker),
    withReturns_of_not_mem (by decide : (10 : UInt8) ∉ endMarker)]
  rfl

/-- Lines of data with any ends hold the bytes that were cut. -/
theorem body_of_isCut {full : List Bytes} {last ending : Bytes} (isCut : IsCut lineBytes full last)
    (ends : IsEnding ending) :
    Body ((full ++ [last]).flatMap fun part => encodeLine part ++ ending) (full.flatten ++ last) := by
  obtain ⟨full_length, last_length, -⟩ := isCut
  induction full with
  | nil =>
    rw [List.nil_append, List.flatMap_singleton]
    exact .last (spells_encodeLine last_length) ends
  | cons part full ih =>
    have size := full_length part List.mem_cons_self
    have behind := ih fun other member => full_length other (List.mem_cons_of_mem part member)
    rw [List.cons_append, List.flatMap_cons, List.flatten_cons, List.append_assoc part]
    exact .more (spells_encodeLine (Nat.le_of_eq size)) ends size behind

/-- An armored file that arrives is well formed. -/
theorem envelope_of_arrives {bs text : Bytes} (arrives : Arrives (encode bs) text) : Envelope text bs := by
  obtain ⟨leading, same, trailing, rfl, lines, form, blank, few⟩ := arrives
  obtain ⟨ending, ends, rfl⟩ : ∃ ending, IsEnding ending ∧ same = encodeWith ending bs := by
    rcases form with rfl | rfl
    · exact ⟨[10], .inl rfl, rfl⟩
    · exact ⟨[13, 10], .inr rfl, withReturns_encode bs⟩
  obtain ⟨full, last, pieces, isCut, rfl⟩ := exists_cut lineBytes_pos bs
  refine ⟨leading, ending, _, endMarker ++ ending ++ trailing, ?_, lines, ends, body_of_isCut isCut ends,
    .line ends blank few⟩
  rw [encodeWith, pieces]
  simp only [List.append_assoc]

theorem isArmored_of_takeLine {bs line rest : Bytes}
    (taken : Buffered.takeLine none (some ArmorReader.openingLimit) bs = .ok (line, rest))
    (opens : beginMarker <+: line ∨ (line ≠ [] ∧ isWhitespace line = true)) : IsArmored bs := by
  obtain ⟨rest', first⟩ := takeLine_opening bs
  rw [taken] at first
  cases first
  exact opens

/-- A well-formed armored file is recognized by its first line. -/
theorem Envelope.isArmored {bs data : Bytes} (envelope : Envelope bs data) : IsArmored bs := by
  obtain ⟨leading, ending, body, closing, rfl, ⟨lines, blank, rfl, few⟩, ends, _, _⟩ := envelope
  cases lines with
  | nil =>
    have taken := @takeLine_of_isEnding beginMarker ending ArmorReader.openingLimit (by decide) (by decide) ends
      (body ++ closing)
    rw [← List.append_assoc] at taken
    exact isArmored_of_takeLine taken (.inl (List.prefix_append _ _))
  | cons first lines =>
    obtain ⟨⟨space, inside⟩, _⟩ := List.forall_mem_cons.1 blank
    have fits : ∀ limit, some ArmorReader.openingLimit = some limit → first.length < limit := by
      rintro limit ⟨⟩
      simp only [List.flatMap_cons, List.length_append, List.length_singleton] at few
      simp only [ArmorReader.openingLimit, maxWhitespace]
      omega
    have taken := Buffered.takeLine_of_line none inside fits
      (lines.flatMap (· ++ [10]) ++ beginMarker ++ ending ++ body ++ closing)
    have whole : (first :: lines).flatMap (· ++ [10]) ++ beginMarker ++ ending ++ body ++ closing =
        first ++ Buffered.newline :: (lines.flatMap (· ++ [10]) ++ beginMarker ++ ending ++ body ++ closing) := by
      simp [Buffered.newline]
    rw [whole]
    exact isArmored_of_takeLine taken (.inr (isWhitespace_line space))

/-- Removing the armor of a file that arrives gives what was armored. -/
theorem unarmor_of_arrives {bs text : Bytes} (arrives : Arrives (encode bs) text) : unarmor none text = (bs, none) := by
  have envelope := envelope_of_arrives arrives
  exact (unarmor_eq_iff envelope.isArmored).2 envelope

end Armor

namespace ArmorWriter
variable {ω : Type} [Writer ω] {recorded : ω → Bytes → Prop} {before : Bytes}

/-- A call on an armor writer takes all that it offers. -/
theorem call_of_reliable (reliable : Writer.Reliable recorded) {w : ArmorWriter ω} {bs : Bytes}
    (holds : Recorded recorded before .armored w bs) (c : Writer.Call) :
    ∃ w', Writer.call w c = (.ok c.bytes.length, w') ∧ Recorded recorded before .armored w' (bs ++ c.bytes) := by
  cases c with
  | write part =>
    rcases write_of_stalls reliable.stalls holds part with done | ⟨_, _, _, _, _, _, _, _, _, _, _, stuck⟩
    · exact done
    · exact stuck.elim
  | flush =>
    obtain ⟨w', step, same⟩ := flush_of_recorded reliable.flushes holds
    exact ⟨w', by rw [Writer.call, step]; rfl, by rwa [Writer.Call.bytes, List.append_nil]⟩

/-- Whatever calls bring the bytes, all of them and finishing succeed, and the armored file is recorded. -/
theorem finish_of_reliable (reliable : Writer.Reliable recorded) {output : ω} (written : recorded output before)
    (calls : List Writer.Call) :
    ∃ w w', start output .armored = (.ok (), w) ∧ (Writer.callEach w calls).1 = (calls.map fun c => .ok c.bytes.length) ∧
      (Writer.callEach w calls).2.finish = (.ok (), w') ∧
      recorded w'.inner (before ++ Armor.encode (Writer.offered calls)) := by
  obtain ⟨inner, step, behind⟩ := reliable.recordsEach written [Armor.beginMarker, Armor.newline]
  obtain ⟨starts, begun⟩ := start_of_writeEach step behind
  obtain ⟨w₁, answers, holds⟩ := @Writer.callEach_of_calls (ArmorWriter ω) _ (fun _ => True)
    (Recorded recorded before .armored) (fun _ => trivial)
    (fun holds c _ => call_of_reliable reliable holds c) calls _ _ begun trivial
  obtain ⟨whole, passed, _, finishes, file⟩ := finish_of_writeEach holds
  obtain ⟨inner', last, holds'⟩ := reliable.recordsEach passed
    [Armor.encodeLine w₁.line, Armor.newline, Armor.endMarker, Armor.newline]
  rw [List.nil_append, Format.encode] at file
  refine ⟨_, ⟨w₁.format, inner', w₁.line⟩, starts, by rw [answers], ?_, by rw [file]; exact holds'⟩
  rw [answers, finishes, last]

end ArmorWriter

namespace Armor

/-- However some bytes are brought to an armor writer, it writes one file, whose lines hold their Base64. However that
    file arrives, all ways to read it out give the bytes and then its end. -/
theorem readsOut_of_written (bs : Bytes) : ∃ file,
    (∃ lines last, Wrapped bs lines last ∧
      file = beginMarker ++ [10] ++ (lines ++ [last]).flatMap (· ++ [10]) ++ endMarker ++ [10]) ∧
    (∀ {ω : Type} [Writer ω] {recorded : ω → Bytes → Prop}, Writer.Reliable recorded →
      ∀ output before, recorded output before → ∀ calls, Writer.offered calls = bs →
        ∃ w w', ArmorWriter.start output .armored = (.ok (), w) ∧
          (Writer.callEach w calls).1 = (calls.map fun c => .ok c.bytes.length) ∧
          (Writer.callEach w calls).2.finish = (.ok (), w') ∧ recorded w'.inner (before ++ file)) ∧
    ∀ {ρ : Type} [Reader ρ] (inner : ρ) text, Arrives file text → Reader.Delivers none inner text →
      (∀ data ending?, Reader.ReadsOut (ArmorReader.ofReader inner) data ending? ↔ data = bs ∧ ending? = none) ∧
      ∀ n, n ≠ 0 → ∃ parts, Reader.HandsOut n (ArmorReader.ofReader inner) parts none ∧ List.flatten parts = bs := by
  refine ⟨encode bs, ?_, ?_, ?_⟩
  · obtain ⟨full, last, pieces, isCut, rfl⟩ := exists_cut lineBytes_pos bs
    refine ⟨_, _, wrapped_of_isCut isCut, ?_⟩
    have lines : full.map encodeLine ++ [encodeLine last] = (full ++ [last]).map encodeLine := by simp
    rw [encode, pieces, lines, List.flatMap_map]
    rfl
  · rintro ω _ recorded reliable output before written calls rfl
    exact ArmorWriter.finish_of_reliable reliable written calls
  · intro ρ _ inner text arrives delivers
    have reads := ArmorReader.delivers delivers
    rw [unarmor_of_arrives arrives] at reads
    refine ⟨fun data ending? => Reader.readsOut_iff_of_delivers reads, fun n asked => ?_⟩
    obtain ⟨parts, ending?, hands⟩ := Reader.exists_handsOut n (ArmorReader.ofReader inner)
    obtain ⟨same, rfl⟩ := Reader.eq_of_readsOut reads (Reader.readsOut_of_handsOut asked hands)
    exact ⟨parts, hands, same⟩

/-- Two bytes, brought one by one to a sink that takes one byte at a time, with other ends of lines on the way and
    whitespace around them. -/
theorem readsOut_of_written_sample :
    let slow : Sink := { Sink.unlimited with portion? := some 1 }
    ∃ w w', ArmorWriter.start slow .armored = (.ok (), w) ∧
      (Writer.callEach w [.write [104], .flush, .write [105]]).2.finish = (.ok (), w') ∧
      let changed := [32, 9, 10] ++ withReturns w'.inner.bytes ++ [10, 32]
      let source : Source := { Source.ofBytes changed with portion? := some 3 }
      Reader.ReadsOut (ArmorReader.ofReader source) [104, 105] none := by
  intro slow
  obtain ⟨file, _, writes, reads⟩ := readsOut_of_written [104, 105]
  obtain ⟨w, w', starts, _, finishes, file_bytes, _⟩ := writes (slow.reliable (by decide) rfl) slow [] slow.recorded_refl
    [.write [104], .flush, .write [105]] rfl
  refine ⟨w, w', starts, finishes, ?_⟩
  intro changed source
  have arrives : Arrives file changed := by
    refine ⟨[32, 9, 10], withReturns file, [10, 32], ?_, ⟨[[32, 9]], by decide, rfl, by decide⟩, .inr rfl, by decide,
      by decide⟩
    simp only [changed, file_bytes]
    rfl
  exact ((reads source changed arrives (Source.delivers source (by simp [source]))).1 _ _).2 ⟨rfl, rfl⟩

end Armor

end AgeCrypt
