import AgeCrypt.Proofs.FileWriting
import AgeCrypt.Proofs.PayloadLayout
import AgeCrypt.Proofs.Stalling

/-!
# Files whose writing is refused

When the writer behind refuses a line or a chunk, the armor writer and the payload writer hold it still, and nothing
smaller is ever offered again: they are stalled as well (`ArmorWriter.stalls`, `PayloadWriter.callEach_cases`). So what was
written comes first in the file, and a file that could be finished is complete (`Prologue.written_within`).
-/

namespace AgeCrypt

section
variable {ω : Type} [Writer ω] {recorded : ω → Bytes → Prop} {stalled : Nat → ω → Bytes → Prop} {before : Bytes}

namespace Header

/-- A text that is taken in part is not offered again, so that the writer need not be stalled then. -/
theorem writeParts_of_stalls (stalls : Writer.Stalls recorded stalled) {w : ω} (holds : recorded w before)
    (parts : List String) :
    (∃ w', writeParts w parts = (.ok (), w') ∧ recorded w' (before ++ parts.flatMap utf8)) ∨
    (∃ e w', writeParts w parts = (.error e, w') ∧
      Writer.Within recorded stalled w' (before ++ parts.flatMap utf8)) := by
  refine writeParts_of_calls (Writer.Within recorded stalled) (fun {w before} holds bs => ?_)
    (fun within => within.mono stalls (List.prefix_append _ _)) holds parts
  rcases stalls.write holds bs with ⟨n, w', step, behind, _⟩ | ⟨e, w', step, stuck⟩
  · by_cases short : n < bs.length
    · refine .inr ⟨_, w', step, fun m taken => by cases taken; exact short, ?_⟩
      exact Writer.within_of_recorded stalled behind ((List.prefix_append_right_inj before).2 (List.take_prefix n bs))
    · rw [List.take_of_length_le (Nat.le_of_not_lt short)] at behind
      exact .inl ⟨n, w', step, Nat.le_of_not_lt short, behind⟩
  · exact .inr ⟨_, w', step, fun m taken => (by cases taken), Writer.within_of_stalled stalls stuck List.prefix_rfl⟩

theorem write_of_stalls (stalls : Writer.Stalls recorded stalled) {w : ω} (holds : recorded w before) (h : Header) :
    (∃ w', h.write w = (.ok (), w') ∧ recorded w' (before ++ h.toBytes)) ∨
    (∃ e w', h.write w = (.error e, w') ∧ Writer.Within recorded stalled w' (before ++ h.toBytes)) := by
  unfold write
  rcases writeParts_of_stalls stalls holds h.parts with ⟨w', step, behind⟩ | ⟨e, w', step, within⟩
  · rw [step]
    exact .inl ⟨w', rfl, behind⟩
  · rw [step]
    exact .inr ⟨e.report, w', rfl, within⟩

end Header

/-! ## Armor -/

/-- Full lines at the beginning of a file stand at the beginning of the armored file. -/
theorem Armor.isPrefix_encode {full : List Bytes} {tail : Bytes} (full_length : ∀ line ∈ full, line.length = lineBytes)
    (more : tail = [] → full = []) :
    beginMarker ++ newline ++ full.flatMap dataLine <+: encode (full.flatten ++ tail) := by
  obtain ⟨rest, _, lines⟩ := exists_cut_append lineBytes_pos full_length more
  rw [encode, lines, List.flatMap_append]
  refine ⟨rest.flatMap dataLine ++ endMarker ++ newline, ?_⟩
  simp only [List.append_assoc]

theorem Armor.isPrefix_encode_start (bs : Bytes) : beginMarker ++ newline <+: encode bs := by
  have start := @isPrefix_encode [] bs (List.forall_mem_nil _) (fun _ => rfl)
  simpa using start

namespace ArmorWriter

/-- The writer behind is stalled, in the armored format for all lines of the length that the line has that is held. -/
def Stalled (stalled : Nat → ω → Bytes → Prop) (before : Bytes) : Format → Nat → ArmorWriter ω → Bytes → Prop
  | .binary, size, w, whole => w.format = .binary ∧ stalled size w.inner (before ++ whole)
  | .armored, size, w, whole => w.format = .armored ∧ size ≠ 0 ∧ w.line.length = Armor.lineBytes ∧
    ∃ full tail, full.flatten ++ tail = whole ∧ (∀ line ∈ full, line.length = Armor.lineBytes) ∧ tail ≠ [] ∧
      Passed (stalled Armor.columns) before w.inner full

theorem length_encodeLine_le {line : Bytes} (le : line.length ≤ Armor.lineBytes) :
    (Armor.encodeLine line).length ≤ Armor.columns := by
  rw [Armor.length_encodeLine]
  simp only [Armor.lineBytes, Armor.columns] at le ⊢
  omega

theorem passesOrRefuses (stalls : Writer.Stalls recorded stalled) (before : Bytes) :
    PassesOrRefuses (Passed recorded before) (Passed (stalled Armor.columns) before) passLine Armor.lineBytes := by
  intro inner full line passed size_eq
  have short : ∀ text ∈ [Armor.encodeLine line, Armor.newline], text.length ≤ Armor.columns := by
    simpa [Armor.newline] using ⟨length_encodeLine_le (Nat.le_of_eq size_eq), (by decide : 1 ≤ Armor.columns)⟩
  unfold Passed
  rw [dataLines_concat]
  exact Writer.writeEach_of_stalls stalls passed short

/-- A line that was refused is refused when it is passed on again. -/
theorem passLine_of_stalled (stalls : Writer.Stalls recorded stalled) {inner : ω} {whole line : Bytes}
    (stuck : stalled Armor.columns inner whole) (size_eq : line.length = Armor.lineBytes) :
    ∃ e inner', passLine inner line = (.error e, inner') ∧ stalled Armor.columns inner' whole := by
  have length : (Armor.encodeLine line).length = Armor.columns := by
    rw [Armor.length_encodeLine, size_eq]
    rfl
  have some : Armor.encodeLine line ≠ [] := List.ne_nil_of_length_pos (length ▸ by decide)
  exact Writer.writeEach_of_stalled stalls stuck (Nat.le_of_eq length.symm) some [Armor.newline]

/-- A call takes all bytes that it is given, or a line was refused. -/
theorem write_of_stalls (stalls : Writer.Stalls recorded stalled) {w : ArmorWriter ω} {bs : Bytes}
    (holds : Recorded recorded before .armored w bs) (part : Bytes) :
    (∃ w', w.write part = (.ok part.length, w') ∧ Recorded recorded before .armored w' (bs ++ part)) ∨
    (∃ e w', w.write part = (.error e, w') ∧ Stalled stalled before .armored part.length w' (bs ++ part)) := by
  obtain ⟨armored, full, passed, isCut, rfl⟩ := holds
  rw [write, armored]
  dsimp only
  rcases gather_of_passesOrRefuses Armor.lineBytes_pos (passesOrRefuses stalls before) passed isCut part with
    ⟨inner, full', held, step, passed', isCut', cut⟩ |
    ⟨e, inner, held, full', tail, step, stuck, whole, full_length, some, cut⟩
  · rw [step]
    exact .inl ⟨_, rfl, rfl, full', passed', isCut', cut.symm⟩
  · have offered : part.length ≠ 0 := by
      intro none
      rw [List.length_eq_zero_iff.1 none, gather, dif_pos rfl] at step
      cases step
    rw [step]
    exact .inr ⟨e, _, rfl, rfl, offered, whole, full', tail, cut, full_length, some, stuck⟩

/-- Behind a refusal, a call with any bytes is refused. -/
theorem write_of_stalled (stalls : Writer.Stalls recorded stalled) {w : ArmorWriter ω} {size : Nat} {whole : Bytes}
    (stuck : Stalled stalled before .armored size w whole) {bs : Bytes} (some : bs ≠ []) :
    ∃ e w', w.write bs = (.error e, w') ∧ Stalled stalled before .armored size w' whole := by
  obtain ⟨armored, offered, held, full, tail, cut, full_length, more, stuck⟩ := stuck
  obtain ⟨e, inner, step, stuck'⟩ := passLine_of_stalled stalls stuck held
  rw [write, armored]
  dsimp only
  rw [gather_of_refused some held step]
  exact ⟨e, _, rfl, rfl, offered, held, full, tail, cut, full_length, more, stuck'⟩

/-- An armor writer stalls when the writer behind does. -/
theorem stalls (stalls : Writer.Stalls recorded stalled) (before : Bytes) (format : Format) :
    Writer.Stalls (Recorded recorded before format) (Stalled stalled before format) where
  write := by
    intro w bs holds part
    show (∃ n w', w.write part = _ ∧ _) ∨ ∃ e w', w.write part = _ ∧ _
    cases format with
    | binary =>
      obtain ⟨binary, written⟩ := holds
      rw [write, binary]
      dsimp only
      rcases stalls.write written part with ⟨n, inner, step, behind, positive⟩ | ⟨e, inner, step, stuck⟩
      · rw [step]
        rw [List.append_assoc] at behind
        exact .inl ⟨n, _, rfl, ⟨rfl, behind⟩, positive⟩
      · rw [step]
        rw [List.append_assoc] at stuck
        exact .inr ⟨e, _, rfl, rfl, stuck⟩
    | armored =>
      refine (write_of_stalls stalls holds part).imp_left ?_
      rintro ⟨w', step, behind⟩
      exact ⟨part.length, w', step, by rwa [List.take_length], List.length_eq_zero_iff.1⟩
  again := by
    intro size w whole bs stuck le
    show ∃ e w', w.write bs = _ ∧ _
    cases format with
    | binary =>
      obtain ⟨binary, stuck⟩ := stuck
      obtain ⟨e, inner, step, stuck'⟩ := stalls.again stuck le
      rw [write, binary]
      dsimp only
      rw [step]
      exact ⟨e, _, rfl, rfl, stuck'⟩
    | armored =>
      have positive : size ≠ 0 := stuck.2.1
      exact write_of_stalled stalls stuck (List.ne_nil_of_length_pos (by omega))
  flush := flush_of_recorded stalls.flushes
  flush_stalled := by
    intro size w whole stuck
    cases format with
    | binary => exact ⟨stuck.1, stalls.flush_stalled stuck.2⟩
    | armored =>
      obtain ⟨armored, offered, held, full, tail, cut, full_length, more, stuck⟩ := stuck
      exact ⟨armored, offered, held, full, tail, cut, full_length, more, stalls.flush_stalled stuck⟩
  mono := by
    intro size size' w whole whole' stuck le longer
    cases format with
    | binary => exact ⟨stuck.1, stalls.mono stuck.2 le ((List.prefix_append_right_inj before).2 longer)⟩
    | armored =>
      obtain ⟨armored, offered, held, full, tail, rfl, full_length, more, stuck⟩ := stuck
      obtain ⟨rest, rfl⟩ := longer
      refine ⟨armored, by omega, held, full, tail ++ rest, (List.append_assoc _ _ _).symm, full_length, ?_, stuck⟩
      exact List.append_ne_nil_of_left_ne_nil more rest

/-- What an armor writer passed on comes first in the file as it is written. -/
theorem within_inner (stalls : Writer.Stalls recorded stalled) {format : Format} {w : ArmorWriter ω} {whole : Bytes}
    (within : Writer.Within (Recorded recorded before format) (Stalled stalled before format) w whole) :
    Writer.Within recorded stalled w.inner (before ++ format.encode whole) := by
  cases format with
  | binary =>
    rcases within with ⟨bs, start, _, written⟩ | ⟨size, _, stuck⟩
    · exact Writer.within_of_recorded stalled written ((List.prefix_append_right_inj before).2 start)
    · exact .inr ⟨size, stuck⟩
  | armored =>
    rw [Format.encode]
    rcases within with ⟨bs, ⟨rest, longer⟩, _, full, passed, isCut, cut⟩ |
      ⟨size, _, _, _, full, tail, cut, full_length, some, stuck⟩
    · have start := @Armor.isPrefix_encode full (w.line ++ rest) isCut.full_length
        fun none => isCut.alone (List.append_eq_nil_iff.1 none).1
      rw [← List.append_assoc, ← cut, longer] at start
      exact Writer.within_of_recorded stalled passed ((List.prefix_append_right_inj before).2 start)
    · have start := Armor.isPrefix_encode full_length fun none => absurd none some
      rw [cut] at start
      exact Writer.within_of_stalled stalls stuck ((List.prefix_append_right_inj before).2 start)

theorem start_of_stalls (stalls : Writer.Stalls recorded stalled) {inner : ω} (written : recorded inner before)
    (format : Format) :
    (∃ w, start inner format = (.ok (), w) ∧ Recorded recorded before format w []) ∨
    (∃ e w, start inner format = (.error e, w) ∧
      ∀ whole, Writer.Within recorded stalled w.inner (before ++ format.encode whole)) := by
  cases format with
  | binary => exact .inl ⟨_, rfl, rfl, by rwa [List.append_nil]⟩
  | armored =>
    have short : ∀ text ∈ [Armor.beginMarker, Armor.newline], text.length ≤ Armor.columns := by decide
    rcases Writer.writeEach_of_stalls stalls written short with ⟨inner', step, behind⟩ | ⟨e, inner', step, stuck⟩
    · exact .inl ⟨_, start_of_writeEach step behind⟩
    · simp only [start, step]
      refine .inr ⟨e, _, rfl, fun whole => Writer.within_of_stalled stalls stuck ?_⟩
      rw [List.prefix_append_right_inj]
      simpa [Format.encode] using Armor.isPrefix_encode_start whole

theorem finish_of_stalls (stalls : Writer.Stalls recorded stalled) {format : Format} {w : ArmorWriter ω} {bs : Bytes}
    (holds : Recorded recorded before format w bs) :
    (∃ w', w.finish = (.ok (), w') ∧ recorded w'.inner (before ++ format.encode bs)) ∨
    (∃ e w', w.finish = (.error e, w') ∧ Writer.Within recorded stalled w'.inner (before ++ format.encode bs)) := by
  cases format with
  | binary =>
    obtain ⟨binary, written⟩ := holds
    rw [finish, binary]
    exact .inl ⟨_, rfl, written⟩
  | armored =>
    obtain ⟨whole, passed, last_length, finishes, file⟩ := finish_of_writeEach holds
    have short : ∀ text ∈ [Armor.encodeLine w.line, Armor.newline, Armor.endMarker, Armor.newline],
        text.length ≤ Armor.columns :=
      List.forall_mem_cons.2 ⟨length_encodeLine_le last_length, by decide⟩
    rw [finishes, file]
    rcases Writer.writeEach_of_stalls stalls passed short with ⟨inner, step, behind⟩ | ⟨e, inner, step, stuck⟩
    · simp only [step]
      exact .inl ⟨_, rfl, behind⟩
    · simp only [step]
      exact .inr ⟨e, _, rfl, Writer.within_of_stalled stalls stuck List.prefix_rfl⟩

end ArmorWriter

/-! ## Payloads -/

namespace Chunk

theorem isPrefix_layoutFrom (cipher : Cipher) (counter : Nat) (full : List Bytes) {rest : List Bytes} (some : rest ≠ []) :
    innerFrom cipher counter full <+: layoutFrom cipher counter (full ++ rest) := by
  induction full generalizing counter with
  | nil => exact List.nil_prefix
  | cons chunk full ih =>
    rw [innerFrom, List.cons_append, layoutFrom_cons (List.append_ne_nil_of_right_ne_nil full some),
      List.prefix_append_right_inj]
    exact ih (counter + 1)

/-- Full chunks at the beginning of a payload stand at the beginning of its layout. -/
theorem isPrefix_layout (cipher : Cipher) {full : List Bytes} {tail : Bytes}
    (full_length : ∀ chunk ∈ full, chunk.length = size) (more : tail = [] → full = []) :
    innerFrom cipher 0 full <+: layout cipher (full.flatten ++ tail) := by
  obtain ⟨rest, some, chunks⟩ := exists_cut_append size_pos full_length more
  rw [layout, show split (full.flatten ++ tail) = full ++ rest from chunks]
  exact isPrefix_layoutFrom cipher 0 full some

end Chunk

variable {cipher : Cipher}

namespace ChunkOutput

/-- Chunks of which the last was refused, or which are too many. -/
def Refused (stalled : Nat → ω → Bytes → Prop) (cipher : Cipher) (before : Bytes) (o : ChunkOutput ω)
    (full : List Bytes) : Prop :=
  ChunkNonce.range ≤ full.length ∨
    (o.nonce.last = false ∧ stalled Chunk.encryptedSize o.inner (before ++ Chunk.innerFrom cipher 0 full))

theorem passesOrRefuses (stalls : Writer.Stalls recorded stalled) (cipher : Cipher) (before : Bytes) :
    PassesOrRefuses (Passed recorded cipher before) (Refused stalled cipher before)
      (fun (o : ChunkOutput ω) chunk => o.pass chunk false) Chunk.size := by
  intro o full chunk passed size_eq
  rcases pass_of_passed passed size_eq with ⟨highest, o', fails⟩ | ⟨numbered, writing⟩
  · refine .inr ⟨_, o', fails, .inl ?_⟩
    rw [List.length_append, List.length_singleton]
    exact Nat.le_of_eq highest.symm
  have sealed := cipher.length_encrypt (ChunkNonce.toBlock ⟨full.length, false⟩) chunk
  rw [size_eq] at sealed
  rcases Writer.writeAll_of_stalls stalls passed.written (cipher.encrypt (ChunkNonce.toBlock ⟨full.length, false⟩) chunk)
    with ⟨inner, writes, behind⟩ | ⟨e, inner, writes, stuck⟩
  · exact .inl ⟨_, writing _ _ writes, .concat numbered behind⟩
  · rw [sealed, List.append_assoc] at stuck
    refine .inr ⟨e, _, writing _ _ writes, .inr ⟨rfl, ?_⟩⟩
    rwa [Chunk.innerFrom_append, Nat.zero_add]

/-- The writer behind is stalled at a full chunk of a payload that has more bytes behind it. -/
def StalledAt (stalled : Nat → ω → Bytes → Prop) (cipher : Cipher) (before : Bytes) (inner : ω) (payload : Bytes) : Prop :=
  ∃ full tail, full.flatten ++ tail = payload ∧ (∀ chunk ∈ full, chunk.length = Chunk.size) ∧ tail ≠ [] ∧
    stalled Chunk.encryptedSize inner (before ++ Chunk.innerFrom cipher 0 full)

theorem StalledAt.within (stalls : Writer.Stalls recorded stalled) {inner : ω} {payload : Bytes}
    (stuck : StalledAt stalled cipher before inner payload) :
    Writer.Within recorded stalled inner (before ++ Chunk.layout cipher payload) := by
  obtain ⟨full, tail, rfl, full_length, some, inner⟩ := stuck
  refine Writer.within_of_stalled stalls inner ((List.prefix_append_right_inj before).2 ?_)
  exact Chunk.isPrefix_layout cipher full_length fun none => absurd none some

/-- A full chunk is refused again under any nonce behind, whether it is the last one or not. -/
theorem pass_of_stalled (stalls : Writer.Stalls recorded stalled) {o : ChunkOutput ω} {whole chunk : Bytes}
    (unmarked : o.nonce.last = false) (stuck : stalled Chunk.encryptedSize o.inner whole)
    (size_eq : chunk.length = Chunk.size) (last : Bool) :
    ∃ e o', o.pass chunk last = (.error e, o') ∧ o'.nonce.last = last ∧ stalled Chunk.encryptedSize o'.inner whole := by
  obtain ⟨cipher, ⟨counter, marked⟩, inner⟩ := o
  obtain rfl : marked = false := unmarked
  have some : chunk ≠ [] := List.ne_nil_of_length_pos (size_eq ▸ Chunk.size_pos)
  have refused : ∀ nonce, ∃ e inner', Writer.writeAll inner (cipher.encrypt nonce chunk) = (.error e, inner') ∧
      stalled Chunk.encryptedSize inner' whole := by
    intro nonce
    have sealed := cipher.length_encrypt nonce chunk
    rw [size_eq] at sealed
    exact Writer.writeAll_of_stalled stalls stuck (Nat.le_of_eq sealed.symm) (cipher.encrypt_ne_nil nonce chunk)
  cases last with
  | true =>
    obtain ⟨e, inner', writes, stuck'⟩ := refused (ChunkNonce.toBlock ⟨counter, true⟩)
    have encrypts := @Chunk.encrypt_last cipher counter chunk fun empty => absurd empty some
    exact ⟨e, _, pass_of_encrypt encrypts writes, rfl, stuck'⟩
  | false =>
    by_cases highest : counter + 1 = ChunkNonce.range
    · refine ⟨.payload .tooManyChunks, ⟨cipher, ⟨0, false⟩, inner⟩, ?_, rfl, stuck⟩
      rw [pass_eq, Chunk.encrypt_exhausted cipher some highest]
      rfl
    · obtain ⟨e, inner', writes, stuck'⟩ := refused (ChunkNonce.toBlock ⟨counter, false⟩)
      exact ⟨e, _, pass_of_encrypt (Chunk.encrypt_inner cipher some highest) writes, rfl, stuck'⟩

end ChunkOutput

namespace PayloadWriter

/-- A full chunk is held that was refused, and the writer behind is stalled for all chunks of its length. -/
structure Stalled (stalled : Nat → ω → Bytes → Prop) (cipher : Cipher) (before : Bytes) (w : PayloadWriter ω)
    (payload : Bytes) : Prop where
  unmarked : w.output.nonce.last = false
  held : w.chunk.length = Chunk.size
  refused : ChunkOutput.StalledAt stalled cipher before w.output.inner payload

omit [Writer ω] in
theorem Stalled.append {w : PayloadWriter ω} {payload : Bytes} (stuck : Stalled stalled cipher before w payload)
    (bs : Bytes) : Stalled stalled cipher before w (payload ++ bs) where
  unmarked := stuck.unmarked
  held := stuck.held
  refused := by
    obtain ⟨full, tail, rfl, full_length, some, inner⟩ := stuck.refused
    exact ⟨full, tail ++ bs, (List.append_assoc _ _ _).symm, full_length, List.append_ne_nil_of_left_ne_nil some bs, inner⟩

/-- Behind a refusal, no call gets the chunk that is held any further. -/
theorem call_of_stalled (stalls : Writer.Stalls recorded stalled) {w : PayloadWriter ω} {payload : Bytes}
    (stuck : Stalled stalled cipher before w payload) (c : Writer.Call) :
    Stalled stalled cipher before (Writer.call w c).2 payload := by
  obtain ⟨unmarked, held, full, tail, cut, full_length, more, inner⟩ := stuck
  cases c with
  | write bs =>
    show Stalled _ _ _ (w.write bs).2 _
    by_cases none : bs = []
    · rw [write, none, gather, dif_pos rfl]
      exact ⟨unmarked, held, full, tail, cut, full_length, more, inner⟩
    · obtain ⟨e, o, step, unmarked', inner'⟩ := ChunkOutput.pass_of_stalled stalls unmarked inner held false
      rw [write, gather_of_refused none held step]
      exact ⟨unmarked', held, full, tail, cut, full_length, more, inner'⟩
  | flush => exact ⟨unmarked, held, full, tail, cut, full_length, more, stalls.flush_stalled inner⟩

/-- A call takes all that it offers, or a chunk was refused. -/
theorem call_cases (stalls : Writer.Stalls recorded stalled) {w : PayloadWriter ω} {payload : Bytes}
    (holds : Recorded recorded cipher before w payload) (c : Writer.Call)
    (few : (payload ++ c.bytes).length ≤ ChunkNonce.range * Chunk.size) :
    (∃ w', Writer.call w c = (.ok c.bytes.length, w') ∧ Recorded recorded cipher before w' (payload ++ c.bytes)) ∨
      Stalled stalled cipher before (Writer.call w c).2 (payload ++ c.bytes) := by
  cases c with
  | write bs =>
    obtain ⟨full, passed, isCut, rfl⟩ := holds
    show (∃ w', w.write bs = _ ∧ _) ∨ Stalled _ _ _ (w.write bs).2 _
    rw [write]
    rcases gather_of_passesOrRefuses Chunk.size_pos (ChunkOutput.passesOrRefuses stalls cipher before) passed isCut bs with
      ⟨o, full', held, step, passed', isCut', cut⟩ | ⟨e, o, held, full', tail, step, refused, whole, full_length, some, cut⟩
    · rw [step]
      exact .inl ⟨_, rfl, full', passed', isCut', cut.symm⟩
    · have numbered := (@allowed_of_room (fun _ => True) cipher before _ tail full' ⟨few, fun _ => trivial⟩ full_length some cut).1
      obtain ⟨unmarked, stuck⟩ := refused.resolve_left (Nat.not_le.2 numbered)
      rw [step]
      exact .inr ⟨unmarked, whole, full', tail, cut, full_length, some, stuck⟩
  | flush =>
    obtain ⟨w', step, same⟩ := flush_of_recorded stalls.flushes holds
    exact .inl ⟨w', by rw [Writer.call, step]; rfl, by rwa [Writer.Call.bytes, List.append_nil]⟩

theorem callEach_of_stalled (stalls : Writer.Stalls recorded stalled) (calls : List Writer.Call) {w : PayloadWriter ω}
    {payload : Bytes} (stuck : Stalled stalled cipher before w payload) :
    Stalled stalled cipher before (Writer.callEach w calls).2 payload := by
  induction calls generalizing w with
  | nil => exact stuck
  | cons c calls ih => exact ih (call_of_stalled stalls stuck c)

/-- All calls take what they offer, or from the first that fails on the writer is stalled. -/
theorem callEach_cases (stalls : Writer.Stalls recorded stalled) (calls : List Writer.Call) {w : PayloadWriter ω}
    {payload : Bytes} (holds : Recorded recorded cipher before w payload)
    (few : (payload ++ Writer.offered calls).length ≤ ChunkNonce.range * Chunk.size) :
    (∃ w', Writer.callEach w calls = (calls.map fun c => .ok c.bytes.length, w') ∧
      Recorded recorded cipher before w' (payload ++ Writer.offered calls)) ∨
    Stalled stalled cipher before (Writer.callEach w calls).2 (payload ++ Writer.offered calls) := by
  induction calls generalizing w payload with
  | nil => exact .inl ⟨w, rfl, by rwa [Writer.offered, List.flatMap_nil, List.append_nil]⟩
  | cons c calls ih =>
    have offered : payload ++ Writer.offered (c :: calls) = payload ++ c.bytes ++ Writer.offered calls := by
      rw [Writer.offered, List.flatMap_cons, List.append_assoc]
      rfl
    rw [offered] at few ⊢
    have fewer : (payload ++ c.bytes).length ≤ ChunkNonce.range * Chunk.size := by
      rw [List.length_append] at few
      omega
    rcases call_cases stalls holds c fewer with ⟨w₁, step, behind⟩ | stuck
    · rw [Writer.callEach_cons step]
      rcases ih behind few with ⟨w₂, rest, written⟩ | stuck
      · exact .inl ⟨w₂, by rw [rest]; rfl, written⟩
      · exact .inr stuck
    · exact .inr ((callEach_of_stalled stalls calls stuck).append _)

/-- Finishing writes the last chunk, which completes the layout of the payload, or that is refused. -/
theorem finish_cases (stalls : Writer.Stalls recorded stalled) {w : PayloadWriter ω} {payload : Bytes}
    (holds : Recorded recorded cipher before w payload) :
    (∃ w', w.finish = (.ok (), w') ∧ recorded w'.output.inner (before ++ Chunk.layout cipher payload)) ∨
    (∃ e w', w.finish = (.error e, w') ∧
      Writer.Within recorded stalled w'.output.inner (before ++ Chunk.layout cipher payload)) := by
  obtain ⟨_, written, sealed, layout, holds, finishes⟩ := finish_of_writeAll holds
  rw [← layout, ← List.append_assoc]
  rcases Writer.writeAll_of_stalls stalls holds sealed with ⟨inner, writes, behind⟩ | ⟨e, inner, writes, stuck⟩
  · obtain ⟨w', step, rfl⟩ := finishes _ _ writes
    exact .inl ⟨w', step, behind⟩
  · obtain ⟨w', step, rfl⟩ := finishes _ _ writes
    exact .inr ⟨e, w', step, Writer.within_of_stalled stalls stuck List.prefix_rfl⟩

/-- Behind a refusal, finishing fails. -/
theorem finish_of_stalled (stalls : Writer.Stalls recorded stalled) {w : PayloadWriter ω} {payload : Bytes}
    (stuck : Stalled stalled cipher before w payload) :
    ∃ e w', w.finish = (.error e, w') ∧ ChunkOutput.StalledAt stalled cipher before w'.output.inner payload := by
  obtain ⟨full, tail, cut, full_length, some, inner⟩ := stuck.refused
  obtain ⟨e, o, step, _, inner'⟩ := ChunkOutput.pass_of_stalled stalls stuck.unmarked inner stuck.held true
  exact ⟨e, { w with output := o }, by rw [finish, step], full, tail, cut, full_length, some, inner'⟩

omit [Writer ω] in
/-- What a payload writer passed on comes first in the layout of any longer payload. -/
theorem within_of_recorded (stalled : Nat → ω → Bytes → Prop) {w : PayloadWriter ω} {payload : Bytes}
    (holds : Recorded recorded cipher before w payload) (bs : Bytes) :
    Writer.Within recorded stalled w.output.inner (before ++ Chunk.layout cipher (payload ++ bs)) := by
  obtain ⟨full, passed, isCut, rfl⟩ := holds
  refine Writer.within_of_recorded stalled passed.written ((List.prefix_append_right_inj before).2 ?_)
  rw [List.append_assoc]
  exact Chunk.isPrefix_layout cipher isCut.full_length fun none => isCut.alone (List.append_eq_nil_iff.1 none).1

end PayloadWriter

/-! ## Whole files -/

namespace PayloadWriter

/-- What is behind the armor writer that a payload writer writes to. -/
def behind (w : PayloadWriter (ArmorWriter ω)) : ω := w.output.inner.inner

/-- Finishes the payload, and then the file. -/
def finishFile (w : PayloadWriter (ArmorWriter ω)) : Except ChannelError Unit × ω :=
  match w.finish with
  | (.error e, w') => (.error e, w'.behind)
  | (.ok (), w') =>
    let (result, w'') := w'.output.inner.finish
    (result, w''.inner)

end PayloadWriter

namespace Prologue

/-- Begins a file in a format: the payload is written to the writer that results. -/
def startFile (p : Prologue) (output : ω) (format : Format) : Except ChannelError Unit × PayloadWriter (ArmorWriter ω) :=
  match ArmorWriter.start output format with
  | (.error e, w) => (.error e, .start p.cipher w)
  | (.ok (), w) => p.write w

/-- A file was begun, and its payload was recorded so far. -/
def Recorded (recorded : ω → Bytes → Prop) (before : Bytes) (p : Prologue) (format : Format)
    (w : PayloadWriter (ArmorWriter ω)) (payload : Bytes) : Prop :=
  PayloadWriter.Recorded (ArmorWriter.Recorded recorded before format) p.cipher (p.header.toBytes ++ p.nonce.bytes) w payload

variable {p : Prologue} {format : Format} {w : PayloadWriter (ArmorWriter ω)}

theorem file_eq (p : Prologue) (payload : Bytes) :
    p.file payload = p.header.toBytes ++ p.nonce.bytes ++ Chunk.layout p.cipher payload :=
  (List.append_assoc _ _ _).symm

/-- The beginning of a file is written, or a part of it. -/
theorem startFile_cases (stalls : Writer.Stalls recorded stalled) {output : ω} (written : recorded output before)
    (p : Prologue) (format : Format) :
    (∃ w, p.startFile output format = (.ok (), w) ∧ Recorded recorded before p format w []) ∨
    (∃ e w, p.startFile output format = (.error e, w) ∧
      ∀ payload, Writer.Within recorded stalled w.behind (before ++ format.encode (p.file payload))) := by
  have armoring := ArmorWriter.stalls stalls before format
  unfold startFile
  rcases ArmorWriter.start_of_stalls stalls written format with ⟨w, starts, begun⟩ | ⟨e, w, starts, within⟩
  · rw [starts]
    dsimp only
    unfold write
    rcases Header.write_of_stalls armoring begun p.header with ⟨w₁, step, header⟩ | ⟨e, w₁, step, within⟩
    · rw [step]
      dsimp only
      rcases Writer.writeAll_of_stalls armoring header p.nonce.bytes with ⟨w₂, step, nonce⟩ | ⟨e, w₂, step, stuck⟩
      · rw [step]
        exact .inl ⟨_, rfl, PayloadWriter.recorded_start nonce⟩
      · rw [step]
        refine .inr ⟨e, _, rfl, fun payload => ArmorWriter.within_inner stalls ?_⟩
        rw [file_eq]
        exact Writer.within_of_stalled armoring stuck (List.prefix_append _ _)
    · rw [step]
      exact .inr ⟨e, _, rfl, fun payload =>
        ArmorWriter.within_inner stalls (within.mono armoring (List.prefix_append _ _))⟩
  · rw [starts]
    exact .inr ⟨e, _, rfl, fun payload => within _⟩

/-- While calls bring a payload, what is written comes first in the file. -/
theorem within_of_callEach (stalls : Writer.Stalls recorded stalled) (begun : Recorded recorded before p format w [])
    (calls : List Writer.Call) (bs : Bytes)
    (few : (Writer.offered calls).length ≤ ChunkNonce.range * Chunk.size) :
    Writer.Within recorded stalled (Writer.callEach w calls).2.behind
      (before ++ format.encode (p.file (Writer.offered calls ++ bs))) := by
  have armoring := ArmorWriter.stalls stalls before format
  refine ArmorWriter.within_inner stalls ?_
  rw [file_eq]
  rcases PayloadWriter.callEach_cases armoring calls begun few with ⟨w', step, holds⟩ | stuck
  · rw [step]
    exact PayloadWriter.within_of_recorded _ holds bs
  · exact (stuck.append bs).refused.within armoring

/-- A file can be finished behind calls that bring a payload only if all of them took what they offered. Then the file is
    written. -/
theorem finishFile_cases (stalls : Writer.Stalls recorded stalled) (begun : Recorded recorded before p format w [])
    (calls : List Writer.Call) (few : (Writer.offered calls).length ≤ ChunkNonce.range * Chunk.size) :
    (∃ output, (Writer.callEach w calls).2.finishFile = (.ok (), output) ∧
      (Writer.callEach w calls).1 = (calls.map fun c => .ok c.bytes.length) ∧
      recorded output (before ++ format.encode (p.file (Writer.offered calls)))) ∨
    (∃ e output, (Writer.callEach w calls).2.finishFile = (.error e, output) ∧
      Writer.Within recorded stalled output (before ++ format.encode (p.file (Writer.offered calls)))) := by
  have armoring := ArmorWriter.stalls stalls before format
  rw [file_eq]
  unfold PayloadWriter.finishFile
  rcases PayloadWriter.callEach_cases armoring calls begun few with ⟨w₁, step, holds⟩ | stuck
  · rw [step]
    rcases PayloadWriter.finish_cases armoring holds with ⟨w₂, step, written⟩ | ⟨e, w₂, step, within⟩
    · rw [step]
      dsimp only
      rcases ArmorWriter.finish_of_stalls stalls written with ⟨w₃, step, written⟩ | ⟨e, w₃, step, within⟩
      · rw [step]
        exact .inl ⟨_, rfl, rfl, written⟩
      · rw [step]
        exact .inr ⟨e, _, rfl, within⟩
    · rw [step]
      exact .inr ⟨e, _, rfl, ArmorWriter.within_inner stalls within⟩
  · obtain ⟨e, w₂, step, refused⟩ := PayloadWriter.finish_of_stalled armoring stuck
    rw [step]
    exact .inr ⟨e, _, rfl, ArmorWriter.within_inner stalls (refused.within armoring)⟩

end Prologue

end

namespace Prologue
variable {p : Prologue} {format : Format} {payload file : Bytes}

/-- The file that results for a payload in a format when nothing is refused. -/
def Gives (p : Prologue) (format : Format) (payload file : Bytes) : Prop :=
  ∃ w w' t, p.startFile Sink.unlimited format = (.ok (), w) ∧ Writer.writeAll w payload = (.ok (), w') ∧
    w'.finishFile = (.ok (), t) ∧ t.bytes = file

theorem startFile_unlimited (p : Prologue) (format : Format) :
    ∃ w, p.startFile Sink.unlimited format = (.ok (), w) ∧ Recorded Sink.unlimited.Recorded [] p format w [] := by
  have room := Sink.room_unlimited #[]
  unfold startFile
  rcases @ArmorWriter.start_of_records _ _ _ _ _ format Sink.unlimited.records _ Sink.unlimited.recorded_refl with
    ⟨w, starts, begun⟩ | ⟨_, _, _, full⟩
  · rw [starts]
    rcases Prologue.write_of_records (ArmorWriter.records Sink.unlimited.records [] format) begun p with
      ⟨w', step, behind⟩ | ⟨_, _, _, full⟩
    · exact ⟨_, step, PayloadWriter.recorded_start behind⟩
    · exact absurd (fun _ => room) full
  · exact absurd room full

theorem finishFile_unlimited {w : PayloadWriter (ArmorWriter Sink)}
    (holds : Recorded Sink.unlimited.Recorded [] p format w payload) :
    ∃ t, w.finishFile = (.ok (), t) ∧ t.bytes = format.encode (p.file payload) := by
  have room := Sink.room_unlimited #[]
  have armoring := ArmorWriter.records Sink.unlimited.records [] format
  unfold PayloadWriter.finishFile
  rcases (PayloadWriter.finish_of_recorded (Writer.writeAll_of_records armoring) holds).2 with
    ⟨w', step, written⟩ | ⟨_, _, _, full⟩
  · rw [step]
    dsimp only
    rcases ArmorWriter.finish_of_recorded Sink.unlimited.records written with ⟨w'', step, written, _⟩ | ⟨_, _, _, full⟩
    · rw [step, file_eq]
      exact ⟨_, rfl, written⟩
    · exact absurd room full
  · exact absurd room full

/-- A file results for a payload if there are numbers for its chunks. -/
theorem gives_iff : p.Gives format payload file ↔
    (Chunk.split payload).length ≤ ChunkNonce.range ∧ file = format.encode (p.file payload) := by
  have room := Sink.room_unlimited #[]
  have armoring := ArmorWriter.records Sink.unlimited.records [] format
  have recording := PayloadWriter.records armoring p.cipher (p.header.toBytes ++ p.nonce.bytes)
  obtain ⟨w, starts, begun⟩ := p.startFile_unlimited format
  constructor
  · rintro ⟨v, w', t, same, writes, finishes, rfl⟩
    rw [starts] at same
    cases same
    have holds := Writer.writeAll_ok_of_records recording begun writes
    obtain ⟨t', step, bytes⟩ := finishFile_unlimited holds
    rw [finishes] at step
    cases step
    exact ⟨(PayloadWriter.finish_of_writeAll holds).1, bytes⟩
  · rintro ⟨few, rfl⟩
    rcases Writer.writeAll_of_records recording begun payload with ⟨w', writes, holds⟩ | ⟨_, _, _, full⟩
    · obtain ⟨t, finishes, bytes⟩ := finishFile_unlimited holds
      exact ⟨w, w', t, starts, writes, finishes, bytes⟩
    · exact absurd ⟨length_le_of_split few, fun _ => room⟩ full

/-- Whatever a sink refuses of a file that is begun and brought by any calls, also behind a failure, it holds at every moment
    what comes first in the file that results when nothing is refused. If the file can be finished, no call has failed, and
    the sink holds all of the file. -/
theorem written_within (p : Prologue) (format : Format) (s : Sink) (portions : s.portion? ≠ some 0)
    (calls : List Writer.Call) (gives : p.Gives format (Writer.offered calls) file) :
    let begun := p.startFile s format
    let called := Writer.callEach begun.2 calls
    let finished := called.2.finishFile
    (∀ t, Writer.Reaches t begun.2.behind → t.bytes <+: s.bytes ++ file) ∧
    (begun.1 = .ok () →
      (∀ made, made <+: calls → ∀ t, Writer.Reaches t (Writer.callEach begun.2 made).2.behind → t.bytes <+: s.bytes ++ file) ∧
      (∀ t, Writer.Reaches t finished.2 → t.bytes <+: s.bytes ++ file) ∧
      (finished.1 = .ok () →
        called.1 = (calls.map fun c => .ok c.bytes.length) ∧ finished.2.bytes = s.bytes ++ file)) := by
  obtain ⟨chunks, rfl⟩ := gives_iff.1 gives
  have few := length_le_of_split chunks
  have stalls := s.stalls portions
  have moments : ∀ {last : Sink} {whole : Bytes}, Writer.Within s.Recorded s.Stalled last whole →
      ∀ t, Writer.Reaches t last → t.bytes <+: s.bytes ++ whole :=
    fun within t reaches => (Sink.isPrefix_of_reaches reaches).trans (Sink.isPrefix_of_within within)
  dsimp only
  rcases startFile_cases stalls s.recorded_refl p format with ⟨w, starts, begun⟩ | ⟨e, w, starts, within⟩
  · rw [starts]
    have within : ∀ made, made <+: calls → Writer.Within s.Recorded s.Stalled (Writer.callEach w made).2.behind
        (format.encode (p.file (Writer.offered calls))) := by
      rintro made ⟨rest, rfl⟩
      rw [Writer.offered, List.flatMap_append] at few ⊢
      rw [List.length_append] at few
      exact within_of_callEach stalls begun made (Writer.offered rest) (by rw [Writer.offered]; omega)
    refine ⟨moments (within [] List.nil_prefix), fun _ => ⟨fun made start => moments (within made start), ?_⟩⟩
    rcases finishFile_cases stalls begun calls few with ⟨output, finishes, answers, written⟩ | ⟨e, output, finishes, within⟩
    · rw [finishes]
      exact ⟨moments (Writer.within_of_recorded _ written List.prefix_rfl), fun _ => ⟨answers, written.1⟩⟩
    · rw [finishes]
      exact ⟨moments within, fun ok => by cases ok⟩
  · rw [starts]
    exact ⟨moments (within _), fun ok => by cases ok⟩

/-- Two bytes for one sink that takes a byte at a time and fifty of them, and for another that takes everything. -/
theorem written_within_hi :
    let p : Prologue := ⟨⟨[], .zeros 32⟩, .zeros 16, .zeros 32⟩
    let calls : List Writer.Call := [.write [104], .flush, .write [], .write [105]]
    let narrow : Sink := ⟨#[], some 1, some 50⟩
    let called := Writer.callEach (p.startFile Sink.unlimited .armored).2 calls
    ∃ file, p.Gives .armored [104, 105] file ∧
      (∀ t, Writer.Reaches t (p.startFile narrow .armored).2.behind → t.bytes <+: file) ∧
      called.1 = [.ok 1, .ok 0, .ok 0, .ok 1] ∧ called.2.finishFile.1 = .ok () ∧
      called.2.finishFile.2.bytes = file := by
  intro p calls narrow called
  have split : Chunk.split [104, 105] = [[104, 105]] := Chunk.split_of_le (by decide)
  have gives : p.Gives .armored [104, 105] (Format.armored.encode (p.file [104, 105])) :=
    gives_iff.2 ⟨by rw [split]; decide, rfl⟩
  obtain ⟨w, starts, begun⟩ := p.startFile_unlimited .armored
  have armoring := ArmorWriter.records Sink.unlimited.records [] .armored
  obtain ⟨w', answers, holds⟩ := PayloadWriter.callEach_of_recorded
    (armoring.reliable fun _ => Sink.room_unlimited #[]) calls begun (by decide)
  have same : called = ([.ok 1, .ok 0, .ok 0, .ok 1], w') := by
    show Writer.callEach (p.startFile Sink.unlimited .armored).2 calls = _
    rw [starts, answers]
    rfl
  obtain ⟨t, finishes, _⟩ := finishFile_unlimited holds
  have refused := (written_within p .armored narrow (by simp [narrow]) calls gives).1
  have complete := (written_within p .armored Sink.unlimited (by simp [Sink.unlimited]) calls gives).2 (by rw [starts])
  have finished : called.2.finishFile.1 = .ok () := by rw [same, finishes]
  exact ⟨_, gives, refused, by rw [same], finished, (complete.2.2 finished).2⟩

end Prologue

end AgeCrypt
