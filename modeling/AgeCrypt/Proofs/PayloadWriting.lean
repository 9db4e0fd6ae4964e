import AgeCrypt.Encryption
import AgeCrypt.Proofs.Chunks
import AgeCrypt.Proofs.Recording

/-!
# What a payload writer writes

A payload writer passes the bytes that it is given on as encrypted chunks, all but the last one, which it holds until
it is finished (`PayloadWriter.records`). Then the layout of the payload was written (`writePayload_of_records`). It
fails only where the writer behind it does, or where there are more chunks than numbers.
-/

namespace AgeCrypt

namespace Chunk

/-- Chunks before the last one as they are written, from the one with a given number on. -/
def innerFrom (cipher : Cipher) : (counter : Nat) → List Bytes → Bytes
  | _, [] => []
  | counter, chunk :: rest =>
    cipher.encrypt (ChunkNonce.toBlock ⟨counter, false⟩) chunk ++ innerFrom cipher (counter + 1) rest

theorem innerFrom_append (cipher : Cipher) (counter : Nat) (full : List Bytes) (chunk : Bytes) :
    innerFrom cipher counter (full ++ [chunk]) =
      innerFrom cipher counter full ++ cipher.encrypt (ChunkNonce.toBlock ⟨counter + full.length, false⟩) chunk := by
  induction full generalizing counter with
  | nil => simp [innerFrom]
  | cons first full ih =>
    rw [List.cons_append, innerFrom, innerFrom, ih, List.length_cons, List.append_assoc, Nat.add_right_comm,
      Nat.add_assoc]

theorem layoutFrom_append (cipher : Cipher) (counter : Nat) (full : List Bytes) (last : Bytes) :
    layoutFrom cipher counter (full ++ [last]) =
      innerFrom cipher counter full ++ cipher.encrypt (ChunkNonce.toBlock ⟨counter + full.length, true⟩) last := by
  induction full generalizing counter with
  | nil => rfl
  | cons first full ih =>
    rw [List.cons_append, layoutFrom_cons (by simp), innerFrom, ih, List.length_cons, List.append_assoc,
      Nat.add_right_comm, Nat.add_assoc]

theorem encrypt_inner (cipher : Cipher) {counter : Nat} {chunk : Bytes} (some : chunk ≠ [])
    (numbered : counter + 1 ≠ ChunkNonce.range) : encrypt cipher ⟨counter, false⟩ chunk false =
      (.ok (cipher.encrypt (ChunkNonce.toBlock ⟨counter, false⟩) chunk), ⟨counter + 1, false⟩) := by
  rw [encrypt_eq, nonceOf_eq_ok fun empty => absurd empty some]
  simp [ChunkNonce.after, numbered, Except.map]

/-- There is no number behind the highest one, so that only the last chunk can have it. -/
theorem encrypt_exhausted (cipher : Cipher) {counter : Nat} {chunk : Bytes} (some : chunk ≠ [])
    (highest : counter + 1 = ChunkNonce.range) :
    encrypt cipher ⟨counter, false⟩ chunk false = (.error .tooManyChunks, ⟨0, false⟩) := by
  rw [encrypt_eq, nonceOf_eq_ok fun empty => absurd empty some]
  simp [ChunkNonce.after, highest, Except.map]

theorem encrypt_last (cipher : Cipher) {counter : Nat} {chunk : Bytes} (first : chunk = [] → counter = 0) :
    encrypt cipher ⟨counter, false⟩ chunk true =
      (.ok (cipher.encrypt (ChunkNonce.toBlock ⟨counter, true⟩) chunk), ⟨counter, true⟩) := by
  rw [encrypt_eq, nonceOf_eq_ok fun empty => ⟨rfl, first empty⟩]
  rfl

end Chunk

section
variable {ω : Type} [Writer ω] {room : Bytes → Prop} {recorded : ω → Bytes → Prop} {cipher : Cipher} {before : Bytes}

namespace ChunkOutput

/-- The chunks that were passed on are written behind what was there before. -/
structure Passed (recorded : ω → Bytes → Prop) (cipher : Cipher) (before : Bytes) (o : ChunkOutput ω)
    (full : List Bytes) : Prop where
  cipher_eq : o.cipher = cipher
  nonce_eq : o.nonce = ⟨full.length, false⟩
  numbered : full.length < ChunkNonce.range
  written : recorded o.inner (before ++ Chunk.innerFrom cipher 0 full)

/-- Chunks before the last one, with a number behind them and with room for them. -/
def Allowed (room : Bytes → Prop) (cipher : Cipher) (before : Bytes) (full : List Bytes) : Prop :=
  full.length < ChunkNonce.range ∧ room (before ++ Chunk.innerFrom cipher 0 full)

omit [Writer ω] in
theorem Passed.nil {inner : ω} (written : recorded inner before) : Passed recorded cipher before ⟨cipher, .first, inner⟩ [] where
  cipher_eq := rfl
  nonce_eq := rfl
  numbered := by decide
  written := by simpa [Chunk.innerFrom] using written

theorem pass_of_encrypt {o : ChunkOutput ω} {chunk sealed : Bytes} {last : Bool} {nonce : ChunkNonce}
    {result : Except ChannelError Unit} {inner : ω} (encrypts : Chunk.encrypt o.cipher o.nonce chunk last = (.ok sealed, nonce))
    (writes : Writer.writeAll o.inner sealed = (result, inner)) : o.pass chunk last = (result, { o with nonce, inner }) := by
  rw [pass_eq, encrypts, passOn, writes]

/-- A chunk behind those that were passed on is written under its number, if there is another number behind. -/
theorem pass_of_passed {o : ChunkOutput ω} {full : List Bytes} {chunk : Bytes}
    (passed : Passed recorded cipher before o full) (size_eq : chunk.length = Chunk.size) :
    (full.length + 1 = ChunkNonce.range ∧ ∃ o', o.pass chunk false = (.error (.payload .tooManyChunks), o')) ∨
    (full.length + 1 < ChunkNonce.range ∧ ∀ result inner,
      Writer.writeAll o.inner (cipher.encrypt (ChunkNonce.toBlock ⟨full.length, false⟩) chunk) = (result, inner) →
        o.pass chunk false = (result, ⟨cipher, ⟨full.length + 1, false⟩, inner⟩)) := by
  obtain ⟨cipher, nonce, inner⟩ := o
  obtain ⟨rfl, rfl, numbered, written⟩ := passed
  have some : chunk ≠ [] := List.ne_nil_of_length_pos (size_eq ▸ Chunk.size_pos)
  by_cases highest : full.length + 1 = ChunkNonce.range
  · refine .inl ⟨highest, ⟨cipher, ⟨0, false⟩, inner⟩, ?_⟩
    rw [pass_eq, Chunk.encrypt_exhausted cipher some highest, passOn]
  · refine .inr ⟨by omega, fun result inner' writes => ?_⟩
    exact pass_of_encrypt (Chunk.encrypt_inner cipher some highest) writes

omit [Writer ω] in
theorem Passed.concat {full : List Bytes} {chunk : Bytes} {inner : ω} (numbered : full.length + 1 < ChunkNonce.range)
    (written : recorded inner (before ++ Chunk.innerFrom cipher 0 full ++
      cipher.encrypt (ChunkNonce.toBlock ⟨full.length, false⟩) chunk)) :
    Passed recorded cipher before ⟨cipher, ⟨full.length + 1, false⟩, inner⟩ (full ++ [chunk]) where
  cipher_eq := rfl
  nonce_eq := by rw [List.length_append, List.length_singleton]
  numbered := by rwa [List.length_append, List.length_singleton]
  written := by rwa [Chunk.innerFrom_append, Nat.zero_add, ← List.append_assoc]

theorem passes (recordsAll : Writer.RecordsAll room recorded) (cipher : Cipher) (before : Bytes) :
    Passes (Allowed room cipher before) (Passed recorded cipher before)
      (fun (o : ChunkOutput ω) chunk => o.pass chunk false) Chunk.size := by
  intro o full chunk passed size_eq
  rcases pass_of_passed passed size_eq with ⟨highest, o', fails⟩ | ⟨numbered, writing⟩
  · refine .inr ⟨_, o', fails, ?_⟩
    rintro ⟨fewer, _⟩
    rw [List.length_append, List.length_singleton, highest] at fewer
    exact Nat.lt_irrefl _ fewer
  rcases recordsAll passed.written (cipher.encrypt (ChunkNonce.toBlock ⟨full.length, false⟩) chunk)
    with ⟨inner', writes, behind⟩ | ⟨e, inner', writes, none⟩
  · exact .inl ⟨_, writing _ _ writes, .concat numbered behind⟩
  · refine .inr ⟨e, _, writing _ _ writes, ?_⟩
    rintro ⟨_, fits⟩
    rw [Chunk.innerFrom_append, Nat.zero_add, ← List.append_assoc] at fits
    exact none fits

end ChunkOutput

namespace PayloadWriter

/-- Room for a payload: there are numbers for all chunks, and room for anything behind. -/
def Fits (room : Bytes → Prop) (payload : Bytes) : Prop :=
  payload.length ≤ ChunkNonce.range * Chunk.size ∧ ∀ bs, room bs

/-- The bytes are cut into chunks, of which all but the last were passed on. -/
def Recorded (recorded : ω → Bytes → Prop) (cipher : Cipher) (before : Bytes) (w : PayloadWriter ω) (payload : Bytes) : Prop :=
  ∃ full, ChunkOutput.Passed recorded cipher before w.output full ∧ IsCut Chunk.size full w.chunk ∧
    payload = full.flatten ++ w.chunk

omit [Writer ω] in
theorem recorded_start {inner : ω} (written : recorded inner before) :
    Recorded recorded cipher before (start cipher inner) [] :=
  ⟨[], .nil written, .nil _, rfl⟩

/-- Chunks that fill whole sizes and have more bytes behind them are allowed where there is room. -/
theorem allowed_of_room {payload tail : Bytes} {full : List Bytes} (fits : Fits room payload)
    (full_length : ∀ piece ∈ full, piece.length = Chunk.size) (some : tail ≠ []) (cut : full.flatten ++ tail = payload) :
    ChunkOutput.Allowed room cipher before full := by
  refine ⟨?_, fits.2 _⟩
  have positive : tail.length ≠ 0 := fun none => some (List.length_eq_zero_iff.1 none)
  have le := fits.1
  rw [← cut, List.length_append, length_flatten_of_full full_length, Nat.mul_comm] at le
  exact Nat.lt_of_mul_lt_mul_right (Nat.lt_of_lt_of_le (Nat.lt_add_of_pos_right (Nat.pos_of_ne_zero positive)) le)

/-- A call takes all bytes that it is given, or there is no room for the payload with them. -/
theorem write_of_recorded (recordsAll : Writer.RecordsAll room recorded) {w : PayloadWriter ω} {payload : Bytes}
    (holds : Recorded recorded cipher before w payload) (bs : Bytes) :
    (∃ w', w.write bs = (.ok bs.length, w') ∧ Recorded recorded cipher before w' (payload ++ bs)) ∨
    (∃ e w', w.write bs = (.error e, w') ∧ ¬ Fits room (payload ++ bs)) := by
  obtain ⟨full, passed, isCut, rfl⟩ := holds
  rw [write]
  rcases gather_of_passes Chunk.size_pos (ChunkOutput.passes recordsAll cipher before) passed isCut bs with
    ⟨s, full', held, step, passed', isCut', cut⟩ | ⟨e, s, held, full', tail, step, refused, full_length, some, cut⟩
  · rw [step]
    exact .inl ⟨_, rfl, full', passed', isCut', cut.symm⟩
  · rw [step]
    exact .inr ⟨e, _, rfl, fun fits => refused (allowed_of_room fits full_length some cut)⟩

/-- A flush passes on what is behind, and keeps what is held. -/
theorem flush_of_recorded (flushes : Writer.Flushes recorded) {w : PayloadWriter ω} {payload : Bytes} (holds : Recorded recorded cipher before w payload) :
    ∃ w', Writer.flush w = (.ok (), w') ∧ Recorded recorded cipher before w' payload := by
  obtain ⟨full, passed, isCut, rfl⟩ := holds
  obtain ⟨inner, step, written⟩ := flushes passed.written
  have same : Writer.flush w = ((Writer.flush w.output.inner).1,
      { w with output := { w.output with inner := (Writer.flush w.output.inner).2 } }) := rfl
  rw [step] at same
  exact ⟨_, same, full, ⟨passed.cipher_eq, passed.nonce_eq, passed.numbered, written⟩, isCut, rfl⟩

/-- A payload writer records the payload that it is given. -/
theorem records (records : Writer.Records room recorded) (cipher : Cipher) (before : Bytes) :
    Writer.Records (Fits room) (Recorded recorded cipher before) where
  room_of_append := by
    rintro payload bs ⟨few, all⟩
    rw [List.length_append] at few
    exact ⟨by omega, all⟩
  write_ok := by
    intro w w' payload bs n holds writes
    change w.write bs = _ at writes
    rcases write_of_recorded (Writer.writeAll_of_records records) holds bs with ⟨w₁, ok, behind⟩ | ⟨e, w₁, fails, _⟩
    · rw [writes] at ok
      cases ok
      rwa [List.take_length]
    · rw [writes] at fails
      cases fails
  write_all := by
    intro w payload bs holds fits
    rcases write_of_recorded (Writer.writeAll_of_records records) holds bs with ⟨w₁, ok, _⟩ | ⟨e, w₁, _, full⟩
    · exact ⟨w₁, ok⟩
    · exact absurd fits full
  flush_ok := flush_of_recorded records.flushes

/-- Finishing writes what is left of the layout of the payload, for which there is a number. -/
theorem finish_of_writeAll {w : PayloadWriter ω} {payload : Bytes} (holds : Recorded recorded cipher before w payload) :
    (Chunk.split payload).length ≤ ChunkNonce.range ∧ ∃ written sealed, written ++ sealed = Chunk.layout cipher payload ∧
      recorded w.output.inner (before ++ written) ∧
      ∀ result inner, Writer.writeAll w.output.inner sealed = (result, inner) →
        ∃ w', w.finish = (result, w') ∧ w'.output.inner = inner := by
  obtain ⟨full, ⟨cipher_eq, nonce_eq, numbered, written⟩, isCut, rfl⟩ := holds
  have split : Chunk.split (full.flatten ++ w.chunk) = full ++ [w.chunk] := cut_flatten isCut
  have first : w.chunk = [] → full.length = 0 := fun empty => by rw [isCut.alone empty, List.length_nil]
  have encrypts := Chunk.encrypt_last cipher first
  rw [← nonce_eq, ← cipher_eq] at encrypts
  rw [split]
  refine ⟨by rwa [List.length_append, List.length_singleton], _,
    cipher.encrypt (ChunkNonce.toBlock ⟨full.length, true⟩) w.chunk, ?_, written, fun result inner writes => ?_⟩
  · rw [Chunk.layout, split, Chunk.layoutFrom_append, Nat.zero_add]
  · rw [← cipher_eq] at writes
    refine ⟨{ w with output := { w.output with nonce := ⟨full.length, true⟩, inner } }, ?_, rfl⟩
    rw [finish, ChunkOutput.pass_of_encrypt encrypts writes]

/-- Finishing writes the last chunk, and then the layout of the payload is written. -/
theorem finish_of_recorded (recordsAll : Writer.RecordsAll room recorded) {w : PayloadWriter ω} {payload : Bytes}
    (holds : Recorded recorded cipher before w payload) :
    (Chunk.split payload).length ≤ ChunkNonce.range ∧
    ((∃ w', w.finish = (.ok (), w') ∧ recorded w'.output.inner (before ++ Chunk.layout cipher payload)) ∨
    (∃ e w', w.finish = (.error e, w') ∧ ¬ room (before ++ Chunk.layout cipher payload))) := by
  obtain ⟨few, written, sealed, layout, holds, finishes⟩ := finish_of_writeAll holds
  rw [← layout, ← List.append_assoc]
  refine ⟨few, ?_⟩
  rcases recordsAll holds sealed with ⟨inner, writes, behind⟩ | ⟨e, inner, writes, none⟩
  · obtain ⟨w', step, rfl⟩ := finishes _ _ writes
    exact .inl ⟨w', step, behind⟩
  · obtain ⟨w', step, _⟩ := finishes _ _ writes
    exact .inr ⟨e, w', step, none⟩

end PayloadWriter

/-- All that an input hands out is written as a payload, or the input fails, or there is no room. -/
theorem writePayload_of_records {ρ : Type} [Reader ρ] {stop? : Option ChannelError} {input : ρ} {payload : Bytes}
    (delivers : Reader.Delivers stop? input payload) (records : Writer.Records room recorded) {inner : ω}
    (written : recorded inner before) :
    (stop? = none ∧ (Chunk.split payload).length ≤ ChunkNonce.range ∧
      ∃ w', writePayload input (.start cipher inner) = (.ok (), w') ∧ recorded w' (before ++ Chunk.layout cipher payload)) ∨
    (∃ e w', writePayload input (.start cipher inner) = (.error e, w') ∧
      (stop? = some e ∨ ¬ PayloadWriter.Fits room payload)) := by
  unfold writePayload
  rcases copy_of_records delivers (PayloadWriter.records records cipher before) (PayloadWriter.recorded_start written) with
    ⟨r, w, copied, behind⟩ | ⟨e, r, w, copied, full⟩
  · rw [copied]
    cases stop? with
    | some e => exact .inr ⟨e, _, rfl, .inl rfl⟩
    | none =>
      obtain ⟨few, finished⟩ := PayloadWriter.finish_of_recorded (Writer.writeAll_of_records records) behind
      rcases finished with ⟨w', finishes, layout⟩ | ⟨e, w', finishes, none⟩
      · exact .inl ⟨rfl, few, w'.output.inner, by simp [finishes], layout⟩
      · exact .inr ⟨e, w'.output.inner, by simp [finishes], .inr fun fits => none (fits.2 _)⟩
  · rw [copied]
    exact .inr ⟨e, _, rfl, .inr full⟩

end

end AgeCrypt
