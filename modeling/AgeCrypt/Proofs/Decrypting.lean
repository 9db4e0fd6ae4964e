import AgeCrypt.Decryption
import AgeCrypt.Proofs.Lines
import AgeCrypt.Proofs.PayloadReading
import AgeCrypt.Proofs.ReadingOut
import AgeCrypt.Proofs.Unarmoring

/-!
# What decryption does with the bytes that it receives

Decryption without any reader (`decryptReceived`): a header is taken from the bytes line by line
(`HeaderReading.takeFrom`), the nonce behind it, and the chunks that open are written in blocks. Main statement:
decrypting an input is just that for the bytes which it holds once its armor is removed, however the input hands them out
and whatever the output does with what it is given (`decrypt_of_delivers`).
-/

namespace AgeCrypt

open Buffered (takeLine)

namespace HeaderReading

/-- Takes the rest of a header from bytes, behind which the failure `stop?` comes, if there is one, together with what
    is left behind the header. -/
def takeFrom (stop? : Option ChannelError) (reading : HeaderReading) (bs : Bytes) : Except DecryptError (Header × Bytes) :=
  match _taken : takeLine stop? none bs with
  | .error e => .error (.channel e)
  | .ok (line, rest) =>
    match _text : lineText? line with
    | none => .error (.header reading.missingLine)
    | some text =>
      match reading.next text with
      | .error e => .error (.header e)
      | .ok (.complete h) => .ok (h, rest)
      | .ok (.more reading') => takeFrom stop? reading' rest
termination_by bs.length
decreasing_by
  have cut := congrArg List.length (Buffered.append_of_takeLine _taken)
  have some := length_of_lineText? _text
  rw [List.length_append] at cut
  omega

section
variable {stop? : Option ChannelError} {reading : HeaderReading} {bs line rest : Bytes}

theorem takeFrom_of_failure {e : ChannelError} (fails : takeLine stop? none bs = .error e) :
    takeFrom stop? reading bs = .error (.channel e) := by
  rw [takeFrom]
  split <;> simp_all

/-- A line that is there decides how taking the header goes on. -/
theorem takeFrom_of_line (taken : takeLine stop? none bs = .ok (line, rest)) :
    takeFrom stop? reading bs =
      match lineText? line with
      | none => .error (.header reading.missingLine)
      | some text =>
        match reading.next text with
        | .error e => .error (.header e)
        | .ok (.complete h) => .ok (h, rest)
        | .ok (.more reading') => takeFrom stop? reading' rest := by
  rw [takeFrom]
  split
  · simp_all
  · rename_i same
    rw [taken] at same
    cases same
    split <;> simp_all

/-- A header is read as it is taken from what the reader holds. -/
theorem readFrom_eq_takeFrom {ρ : Type} [Reader ρ] {r : Buffered ρ} (holds : r.Holds stop? bs) :
    (∃ h rest r', takeFrom stop? reading bs = .ok (h, rest) ∧ readFrom reading r = (.ok h, r') ∧ r'.Holds stop? rest) ∨
    (∃ e r', takeFrom stop? reading bs = .error e ∧ readFrom reading r = (.error e, r')) := by
  fun_induction readFrom reading r generalizing bs with
  | case1 reading r e r' reads =>
    exact .inr ⟨_, r', takeFrom_of_failure (Buffered.takeLine_of_readLine_error holds reads), rfl⟩
  | case2 reading r line r' reads isText =>
    obtain ⟨rest, taken, left⟩ := Buffered.takeLine_of_readLine_ok holds reads
    rw [takeFrom_of_line taken, isText]
    exact .inr ⟨_, r', rfl, rfl⟩
  | case3 reading r line r' reads text isText e rejected =>
    obtain ⟨rest, taken, left⟩ := Buffered.takeLine_of_readLine_ok holds reads
    rw [takeFrom_of_line taken, isText]
    dsimp only
    rw [rejected]
    exact .inr ⟨_, r', rfl, rfl⟩
  | case4 reading r line r' reads text isText h complete =>
    obtain ⟨rest, taken, left⟩ := Buffered.takeLine_of_readLine_ok holds reads
    rw [takeFrom_of_line taken, isText]
    dsimp only
    rw [complete]
    exact .inl ⟨h, rest, r', rfl, rfl, left⟩
  | case5 reading r line r' reads text isText reading' more ih =>
    obtain ⟨rest, taken, left⟩ := Buffered.takeLine_of_readLine_ok holds reads
    rw [takeFrom_of_line taken, isText]
    dsimp only
    rw [more]
    exact ih left

end

end HeaderReading

namespace LockedFile

/-- Takes a file that is not armored from bytes up to its payload, behind which the failure `stop?` comes, if there is
    one. -/
def take (stop? : Option ChannelError) (bs : Bytes) : Except DecryptError (LockedFile Bytes) :=
  match HeaderReading.takeFrom stop? .version bs with
  | .error e => .error e
  | .ok (header, rest) =>
    if !header.passphraseAlone then .error .passphraseNotAlone
    else if enough : 16 ≤ rest.length then
      .ok ⟨header, ⟨rest.take 16, List.length_take_of_le enough⟩, rest.drop 16⟩
    else .error (nonceError (stop?.getD .endOfInput))

section
variable {ρ : Type} [Reader ρ] {stop? : Option ChannelError} {bs : Bytes}

/-- Behind a header, the rest is read up to the payload as it is taken from the bytes. -/
theorem ofHeader_eq_take {header : Header} {rest : Bytes} (takes : HeaderReading.takeFrom stop? .version bs = .ok (header, rest))
    {input : ρ} (delivers : Reader.Delivers stop? input rest) :
    (∃ locked input', take stop? bs = .ok locked ∧ ofHeader header input = .ok ⟨locked.header, locked.nonce, input'⟩ ∧
      Reader.Delivers stop? input' locked.input) ∨
    (∃ e, take stop? bs = .error e ∧ ofHeader header input = .error e) := by
  unfold take ofHeader
  rw [takes]
  dsimp only
  by_cases alone : header.passphraseAlone = true
  · simp only [alone, Bool.not_true, Bool.false_eq_true, if_false]
    by_cases enough : 16 ≤ rest.length
    · obtain ⟨input', step, tail⟩ := Reader.readExactly_of_delivers delivers enough
      rw [step, dif_pos enough]
      exact .inl ⟨_, input', rfl, rfl, tail⟩
    · obtain ⟨input', step⟩ := Reader.readExactly_of_short delivers (Nat.not_le.1 enough)
      rw [step, dif_neg enough]
      exact .inr ⟨_, rfl, rfl⟩
  · simp only [alone]
    exact .inr ⟨_, rfl, rfl⟩

theorem take_of_error {e : DecryptError} (takes : HeaderReading.takeFrom stop? .version bs = .error e) :
    take stop? bs = .error e := by
  rw [take, takes]

/-- A file is read up to its payload as it is taken from what the reader holds. -/
theorem ofBuffered_eq_take {input : Buffered ρ} (holds : input.Holds stop? bs) :
    (∃ locked input', take stop? bs = .ok locked ∧ ofBuffered input = .ok ⟨locked.header, locked.nonce, input'⟩ ∧
      Reader.Delivers stop? input' locked.input) ∨
    (∃ e, take stop? bs = .error e ∧ ofBuffered input = .error e) := by
  unfold ofBuffered Header.read
  rcases @HeaderReading.readFrom_eq_takeFrom _ .version _ _ _ _ holds with
    ⟨header, rest, r, takes, reads, left⟩ | ⟨e, r, takes, reads⟩
  · rw [reads]
    exact ofHeader_eq_take takes (Buffered.delivers_of_holds left)
  · rw [reads]
    exact .inr ⟨e, take_of_error takes, rfl⟩

end

end LockedFile

namespace PayloadReader
variable {ρ : Type} [Reader ρ] {stop? ending? : Option ChannelError} {r : PayloadReader ρ} {n : Nat}

/-- What a call hands out of a chunk that is there. -/
theorem retry_of_some (asked : n ≠ 0) (sound : r.failed? = none) {chunk : Bytes} (holds : r.chunk? = some chunk) :
    Reader.retry r n = (.ok (chunk.take n), (r.serve n).2) :=
  Reader.retry_of_read_ok (read_of_some asked sound holds)

/-- A chunk is handed out in pieces, and then comes what the reader hands out without it. -/
theorem handsOut_of_chunk (asked : n ≠ 0) (sound : r.failed? = none) (stocked : r.chunk? ≠ some []) {parts : List Bytes}
    (behind : Reader.HandsOut n { r with chunk? := none } parts ending?) :
    Reader.HandsOut n r (pieces n (r.chunk?.getD []) ++ parts) ending? := by
  induction size : (r.chunk?.getD []).length using Nat.strongRecOn generalizing r with | _ m ih => ?_
  cases holds : r.chunk? with
  | none =>
    have same : { r with chunk? := none } = r := by rw [← holds]
    rw [same] at behind
    rw [Option.getD_none, pieces, if_pos (.inr rfl)]
    exact behind
  | some chunk =>
    have nonempty : chunk ≠ [] := by
      rintro rfl
      exact stocked holds
    have positive : chunk.length ≠ 0 := fun zero => nonempty (List.length_eq_zero_iff.1 zero)
    have taken : chunk.take n ≠ [] := fun none => (List.take_eq_nil_iff.1 none).elim asked nonempty
    obtain ⟨stocked', left⟩ := r.chunk?_serve n
    rw [holds, Option.getD_some] at left size
    have fewer : ((r.serve n).2.chunk?.getD []).length < m := by
      rw [left, List.length_drop]
      omega
    have rest := ih _ fewer (r := (r.serve n).2) sound stocked' behind rfl
    rw [left] at rest
    rw [Option.getD_some, pieces, if_neg (not_or.2 ⟨asked, nonempty⟩), List.cons_append]
    exact .handed taken (retry_of_some asked sound holds) rest

/-- A call that fetches a chunk is answered as if the chunk had been there. -/
theorem retry_of_accepted (asked : n ≠ 0) (sound : r.failed? = none) (open_ : r.nonce.last = false) (empty : r.chunk? = none)
    {inner : ρ} {chunk : Bytes} {last : Bool} (fetched : r.nextChunk = (.ok (), r.accepted inner chunk last)) :
    Reader.retry r n = Reader.retry (r.accepted inner chunk last) n := by
  have reads : Reader.read r n = (.ok (chunk.take n), ((r.accepted inner chunk last).serve n).2) := by
    show r.read n = _
    rw [read_of_none asked sound open_ empty, fetched]
    rfl
  rw [retry_of_some (r := r.accepted inner chunk last) asked sound rfl]
  exact Reader.retry_of_read_ok reads

theorem retry_of_rejected (asked : n ≠ 0) (sound : r.failed? = none) (open_ : r.nonce.last = false) (empty : r.chunk? = none)
    {r' : PayloadReader ρ} {e : ChannelError} (fetched : r.nextChunk = (.error e, r')) (final : e.isInterruption = false) :
    Reader.retry r n = (.error e, r') := by
  have reads : Reader.read r n = (.error e, r') := by
    show r.read n = _
    rw [read_of_none asked sound open_ empty, fetched]
  exact Reader.retry_of_read_error reads final

/-- Behind the last chunk there is nothing. -/
theorem handsOut_of_ended (n : Nat) (sound : r.failed? = none) (last : r.nonce.last = true) (empty : r.chunk? = none) :
    Reader.HandsOut n r [] none :=
  .ended (Reader.retry_of_read_ok (read_of_last n sound last empty))

/-- A payload reader hands out the chunks that open, each in pieces. -/
theorem handsOut_of_delivers (asked : n ≠ 0) (sound : r.failed? = none) (pending : r.pending = [])
    (open_ : r.nonce.last = false) (empty : r.chunk? = none) {sealed : Bytes}
    (delivers : Reader.Delivers stop? r.inner sealed) :
    Reader.HandsOut n r ((Chunk.openFrom r.cipher stop? r.nonce.counter sealed).1.flatMap (pieces n))
      (Chunk.openFrom r.cipher stop? r.nonce.counter sealed).2 := by
  induction size : sealed.length using Nat.strongRecOn generalizing r sealed with | _ m ih => ?_
  rcases outcome_cases (outcome_nextChunk delivers pending) with
    ⟨chunk, last, inner, opened, fetched, left⟩ | ⟨e, r', opened, fetched, final, _⟩
  · have same := retry_of_accepted asked sound open_ empty fetched
    refine Reader.handsOut_of_retry same ?_
    cases last with
    | false =>
      have nonempty : chunk ≠ [] := by
        rintro rfl
        cases Chunk.length_of_inner opened
      have fewer : (sealed.drop Chunk.encryptedSize).length < m := by
        have positive : sealed.length ≠ 0 := fun zero => Chunk.some_of_next opened (List.length_eq_zero_iff.1 zero)
        rw [List.length_drop, ← size]
        simp only [Chunk.encryptedSize, Chunk.size]
        omega
      have behind := ih _ fewer (r := { r.accepted inner chunk false with chunk? := none }) sound rfl rfl rfl left rfl
      rw [Chunk.openFrom_of_inner opened]
      have stocked : (r.accepted inner chunk false).chunk? ≠ some [] := fun none => nonempty (Option.some.inj none)
      exact handsOut_of_chunk (r := r.accepted inner chunk false) asked sound stocked behind
    | true =>
      have ended := handsOut_of_ended (r := { r.accepted inner chunk true with chunk? := none }) n sound rfl rfl
      rw [Chunk.openFrom_of_last opened, List.flatMap_singleton]
      by_cases none : chunk = []
      · rw [none, pieces, if_pos (.inr rfl)]
        have step := retry_of_some (r := r.accepted inner [] true) asked sound rfl
        rw [List.take_nil] at step
        exact .ended step
      · have stocked : (r.accepted inner chunk true).chunk? ≠ some [] := fun same => none (Option.some.inj same)
        have behind := handsOut_of_chunk (r := r.accepted inner chunk true) asked sound stocked ended
        rwa [List.append_nil] at behind
  · rw [Chunk.openFrom_of_error opened]
    exact .failed (retry_of_rejected asked sound open_ empty fetched final)

theorem handsOut_start (asked : n ≠ 0) (cipher : Cipher) {inner : ρ} {sealed : Bytes}
    (delivers : Reader.Delivers stop? inner sealed) :
    Reader.HandsOut n (start cipher inner) ((Chunk.openFrom cipher stop? 0 sealed).1.flatMap (pieces n))
      (Chunk.openFrom cipher stop? 0 sealed).2 :=
  handsOut_of_delivers (r := start cipher inner) asked rfl rfl rfl rfl delivers

end PayloadReader

/-- Decrypts a file that is not armored, which comes as some bytes with the failure `stop?` behind them, if there is
    one, and writes the plaintext in blocks. -/
def decryptReceived {ω : Type} [Writer ω] (identities : List Identity) (stop? : Option ChannelError) (bs : Bytes)
    (output : ω) : Decrypted ω :=
  match LockedFile.take stop? bs with
  | .error e => ⟨.error e, output, []⟩
  | .ok locked =>
    match LockedFile.tryFrom locked.header.recipients 0 [] identities with
    | (.error e, events) => ⟨.error e, output, events⟩
    | (.ok key, events) =>
      if locked.header.hasMac key then
        let (chunks, ending?) := Chunk.openFrom (.chaCha20Poly1305 (key.payloadKey locked.nonce)) stop? 0 locked.input
        match Writer.writeOut output (chunks.flatMap (pieces Reader.blockSize)) ending? with
        | (.error e, output) => ⟨.error (.channel e), output, events⟩
        | (.ok (), output) =>
          match Writer.flush output with
          | (result, output) => ⟨result.mapError .channel, output, events⟩
      else ⟨.error .wrongMac, output, events⟩

/-- Decrypting an input is decrypting the bytes that it holds once its armor is removed. -/
theorem decrypt_of_delivers {ρ ω : Type} [Reader ρ] [Writer ω] {stop? : Option ChannelError} {input : ρ} {bs : Bytes}
    (delivers : Reader.Delivers stop? input bs) (identities : List Identity) (output : ω) :
    decrypt identities input output =
      decryptReceived identities (Armor.unarmor stop? bs).2 (Armor.unarmor stop? bs).1 output := by
  have holds := Buffered.holds_ofReader (ArmorReader.delivers delivers)
  unfold decrypt decryptReceived LockedFile.ofReader
  rcases LockedFile.ofBuffered_eq_take holds with ⟨locked, input', takes, reads, tail⟩ | ⟨e, takes, reads⟩
  · rw [takes, reads]
    dsimp only
    unfold LockedFile.unlock LockedFile.findKey
    cases LockedFile.tryFrom locked.header.recipients 0 [] identities with | mk found events => ?_
    cases found with
    | error e => rfl
    | ok key =>
      dsimp only
      unfold LockedFile.unlockWith
      by_cases right : locked.header.hasMac key = true
      · rw [if_pos right, if_pos right]
        dsimp only
        have asked : Reader.blockSize ≠ 0 := by decide
        have hands := PayloadReader.handsOut_start asked (.chaCha20Poly1305 (key.payloadKey locked.nonce)) tail
        rw [← copy_of_handsOut hands output]
        cases (copy (PayloadReader.start _ input') output).result <;> rfl
      · rw [if_neg right, if_neg right]
  · rw [takes, reads]

end AgeCrypt
