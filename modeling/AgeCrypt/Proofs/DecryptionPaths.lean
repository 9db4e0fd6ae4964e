import AgeCrypt.Proofs.ArmorGrammar
import AgeCrypt.Proofs.Decrypting
import AgeCrypt.Proofs.HeaderCodec
import AgeCrypt.Proofs.PayloadEnding
import AgeCrypt.Proofs.Rereading

/-!
# Ways to decrypt

A file that is not armored can be decrypted from memory, where all of it was read before, from a buffered reader, and
from a reader behind which armor is looked for. Each way takes the header and the nonce from the bytes as
`LockedFile.take` does (`LockedFile.Opens`), and then only the bytes of the payload matter (`LockedFile.turnsOut_unlock`).
Main statement: the three ways turn out alike, and a file that was read into memory is written as it was
(`decryption_agrees`).
-/

namespace AgeCrypt

/-- What comes of decrypting, as far as a caller can tell: a failure, or the plaintext and how it ends, and what is
    logged. -/
abbrev Outcome := Except DecryptError (Bytes × Option ChannelError) × List Event

/-- Decryption fails in this way, or gives a reader that hands out just this plaintext, however it is called. -/
inductive TurnsOut {ρ : Type} [Reader ρ] : Except DecryptError (PayloadReader ρ) × List Event → Outcome → Prop
  | failed (e : DecryptError) (events : List Event) : TurnsOut (.error e, events) (.error e, events)
  | opened {plaintext : PayloadReader ρ} {whole : Bytes} {ending? : Option ChannelError}
      (yields : Reader.Yields plaintext whole ending?) (events : List Event) :
      TurnsOut (.ok plaintext, events) (.ok (whole, ending?), events)

namespace LockedFile
variable {ρ : Type} [Reader ρ]

/-- What comes of unlocking a file with its encrypted payload at hand. -/
def outcome (locked : LockedFile Bytes) (identities : List Identity) : Outcome :=
  match tryFrom locked.header.recipients 0 [] identities with
  | (.error e, events) => (.error e, events)
  | (.ok key, events) =>
    if locked.header.hasMac key then
      let (chunks, ending?) := Chunk.openFrom (.chaCha20Poly1305 (key.payloadKey locked.nonce)) none 0 locked.input
      (.ok (chunks.flatten, ending?), events)
    else (.error .wrongMac, events)

/-- Unlocking depends on the bytes of the payload, and on nothing else about the reader of them. -/
theorem turnsOut_unlock {locked : LockedFile Bytes} {input : ρ} (delivers : Reader.Delivers none input locked.input)
    (identities : List Identity) :
    TurnsOut (unlock ⟨locked.header, locked.nonce, input⟩ identities) (locked.outcome identities) := by
  unfold unlock findKey outcome
  dsimp only
  cases tryFrom locked.header.recipients 0 [] identities with | mk found events => ?_
  cases found with
  | error e => exact .failed e events
  | ok key =>
    dsimp only [unlockWith]
    by_cases right : locked.header.hasMac key = true
    · rw [if_pos right, if_pos right]
      exact .opened (PayloadReader.yields_of_expects (PayloadReader.expects_start _ delivers)) events
    · rw [if_neg right, if_neg right]
      exact .failed .wrongMac events

/-- Unlocks a file if it was read up to its payload. -/
def unlockRead (identities : List Identity) :
    Except DecryptError (LockedFile ρ) → Except DecryptError (PayloadReader ρ) × List Event
  | .error e => (.error e, [])
  | .ok locked => locked.unlock identities

/-- What comes of taking a file from bytes and unlocking it. -/
def outcomeOf (bs : Bytes) (identities : List Identity) : Outcome :=
  match take none bs with
  | .error e => (.error e, [])
  | .ok locked => locked.outcome identities

/-- A file was read up to its payload as it is taken from these bytes. -/
def Opens (bs : Bytes) (read : Except DecryptError (LockedFile ρ)) : Prop :=
  (∃ locked input, take none bs = .ok locked ∧ read = .ok ⟨locked.header, locked.nonce, input⟩ ∧
    Reader.Delivers none input locked.input) ∨
  ∃ e, take none bs = .error e ∧ read = .error e

theorem turnsOut_of_opens {bs : Bytes} {read : Except DecryptError (LockedFile ρ)} (opens : Opens bs read)
    (identities : List Identity) : TurnsOut (unlockRead identities read) (outcomeOf bs identities) := by
  unfold outcomeOf
  rcases opens with ⟨locked, input, takes, rfl, delivers⟩ | ⟨e, takes, rfl⟩
  · rw [takes]
    exact turnsOut_unlock delivers identities
  · rw [takes]
    exact .failed e []

/-- From a buffered reader, a file is read as it is taken from the bytes. -/
theorem opens_ofBuffered {source : ρ} {bs : Bytes} (delivers : Reader.Delivers none source bs) :
    Opens bs (ofBuffered (Buffered.ofReader source)) :=
  ofBuffered_eq_take (Buffered.holds_ofReader delivers)

/-- Looking for armor changes nothing about a file that is not armored. -/
theorem opens_ofReader {source : ρ} {bs : Bytes} (plain : ¬ Armor.IsArmored bs)
    (delivers : Reader.Delivers none source bs) : Opens bs (ofReader source) := by
  have passed := ArmorReader.delivers delivers
  rw [Armor.unarmor_of_not_isArmored plain] at passed
  exact opens_ofBuffered passed

end LockedFile

/-- What begins with a header is not taken for an armored file. -/
theorem Header.not_isArmored (h : Header) (rest : Bytes) : ¬ Armor.IsArmored (h.toBytes ++ rest) := by
  obtain ⟨behind, taken⟩ := h.takeLine_opening rest
  obtain ⟨behind', taken'⟩ := Armor.takeLine_opening (h.toBytes ++ rest)
  have first : Armor.firstLine (h.toBytes ++ rest) = utf8 Header.versionLine ++ Armor.newline := by
    rw [taken] at taken'
    exact (congrArg Prod.fst (Except.ok.inj taken')).symm
  rw [← Armor.opensArmor_firstLine, first]
  decide

/-- There is a whole nonce behind the header with which some bytes begin, if they begin with one. -/
def Header.LeavesNonce (bs : Bytes) : Prop :=
  ∀ (header : Header) (rest : Bytes), header.isWritable = true → bs = header.toBytes ++ rest → 16 ≤ rest.length

/-- A header and what is behind it are determined by the bytes. -/
theorem Header.eq_of_append {h h' : Header} {rest rest' : Bytes} (writable : h.isWritable = true)
    (writable' : h'.isWritable = true) (same : h.toBytes ++ rest = h'.toBytes ++ rest') : h = h' ∧ rest = rest' := by
  have delivers := Source.delivers_ofBytes (h.toBytes ++ rest)
  have delivers' : Reader.Delivers none (Source.ofBytes (h.toBytes ++ rest)) (h'.toBytes ++ rest') := by
    rw [← same]
    exact delivers
  obtain ⟨r, reads, _⟩ := read_toBytes writable (Buffered.holds_ofReader delivers)
  obtain ⟨r', reads', _⟩ := read_toBytes writable' (Buffered.holds_ofReader delivers')
  rw [reads] at reads'
  cases reads'
  exact ⟨rfl, List.append_cancel_left same⟩

theorem Header.leavesNonce_append {h : Header} {rest : Bytes} (writable : h.isWritable = true)
    (enough : 16 ≤ rest.length) : LeavesNonce (h.toBytes ++ rest) := by
  intro h' rest' writable' same
  rw [← (eq_of_append writable writable' same).2]
  exact enough

/-- What is taken from the bytes as a header has a nonce behind it. -/
theorem Header.LeavesNonce.of_takeFrom {bs : Bytes} (nonce : LeavesNonce bs) {header : Header} {rest : Bytes}
    (takes : HeaderReading.takeFrom none .version bs = .ok (header, rest)) : 16 ≤ rest.length := by
  have holds := Buffered.holds_ofReader (Source.delivers_ofBytes bs)
  rcases @HeaderReading.readFrom_eq_takeFrom _ .version _ _ _ _ holds with
    ⟨header', rest', r, takes', reads, left⟩ | ⟨e, r, fails, _⟩
  · rw [takes] at takes'
    cases takes'
    obtain ⟨writable, rest', same, left'⟩ := Header.read_of_holds holds reads
    have whole := Buffered.drain_of_holds left
    rw [Buffered.drain_of_holds left'] at whole
    exact whole ▸ nonce header rest' writable same
  · rw [takes] at fails
    cases fails

section
variable {ρ : Type} [Reader ρ] {source : ρ} {bs : Bytes}

/-- A file that was read into memory is all of the bytes. -/
theorem File.toBytes_of_read (delivers : Reader.Delivers none source bs) {f : File} (reads : File.read source = .ok f) :
    f.toBytes = bs := by
  unfold File.read at reads
  split at reads
  · cases reads
  rename_i header r parsed
  obtain ⟨_, rest, rfl, left⟩ := Header.read_of_holds (Buffered.holds_ofReader delivers) parsed
  obtain ⟨r', drained⟩ := Reader.drain_of_delivers (Buffered.delivers_of_holds left)
  rw [drained] at reads
  dsimp only at reads
  split at reads
  · cases reads
  · cases reads
    rfl

/-- Decrypts a file in memory if it was read. -/
def decryptRead (identities : List Identity) :
    Except DecryptError File → Except DecryptError (PayloadReader Source) × List Event
  | .error e => (.error e, [])
  | .ok f => decryptInMemory identities f

theorem decryptRead_eq_unlockRead (identities : List Identity) (read : Except DecryptError File) :
    decryptRead identities read = LockedFile.unlockRead identities (read.bind LockedFile.ofFile) := by
  cases read with
  | error e => rfl
  | ok f =>
    show decryptInMemory identities f = LockedFile.unlockRead identities (LockedFile.ofFile f)
    unfold decryptInMemory
    cases LockedFile.ofFile f <;> rfl

/-- A file is read into memory and then up to its payload as it is taken from the bytes, if there is a nonce. -/
theorem LockedFile.opens_ofFile (nonce : Header.LeavesNonce bs) (delivers : Reader.Delivers none source bs) :
    Opens bs ((File.read source).bind ofFile) := by
  have holds := Buffered.holds_ofReader delivers
  unfold File.read Header.read
  rcases @HeaderReading.readFrom_eq_takeFrom _ .version _ _ _ _ holds with
    ⟨header, rest, r, takes, reads, left⟩ | ⟨e, r, takes, reads⟩
  · have enough := nonce.of_takeFrom takes
    obtain ⟨r', drained⟩ := Reader.drain_of_delivers (Buffered.delivers_of_holds left)
    rw [reads]
    dsimp only
    rw [drained]
    dsimp only
    rw [if_neg (Nat.not_lt.2 enough)]
    exact ofHeader_eq_take takes (Source.delivers_ofBytes rest)
  · rw [reads]
    exact .inr ⟨e, take_of_error takes, rfl⟩

end

/-- The ways to decrypt agree. Whatever reads some bytes, and with whatever identities, decrypting them from a buffered
    reader turns out as decrypting them from memory does, unless they begin with a header but have no whole nonce behind
    it, and as looking for armor first does, unless they are taken for an armored file. If they are read into memory as
    a file at all, writing that file gives just these bytes. -/
theorem decryption_agrees (bs : Bytes) (identities : List Identity) :
    (∃ outcome,
      (∀ {ρ : Type} [Reader ρ] {source : ρ}, Reader.Delivers none source bs →
        TurnsOut (LockedFile.unlockRead identities (LockedFile.ofBuffered (Buffered.ofReader source))) outcome) ∧
      (Header.LeavesNonce bs → ∀ {ρ : Type} [Reader ρ] {source : ρ}, Reader.Delivers none source bs →
        TurnsOut (decryptRead identities (File.read source)) outcome) ∧
      (¬ Armor.IsArmored bs → ∀ {ρ : Type} [Reader ρ] {source : ρ}, Reader.Delivers none source bs →
        TurnsOut (LockedFile.unlockRead identities (LockedFile.ofReader source)) outcome)) ∧
    ∀ {ρ : Type} [Reader ρ] {source : ρ} {f : File}, Reader.Delivers none source bs → File.read source = .ok f →
      ∃ sink, f.write Sink.unlimited = (.ok (), sink) ∧ sink.bytes = bs := by
  refine ⟨⟨LockedFile.outcomeOf bs identities, ?_, ?_, ?_⟩, ?_⟩
  · intro ρ _ source delivers
    exact LockedFile.turnsOut_of_opens (LockedFile.opens_ofBuffered delivers) identities
  · intro nonce ρ _ source delivers
    rw [decryptRead_eq_unlockRead]
    exact LockedFile.turnsOut_of_opens (LockedFile.opens_ofFile nonce delivers) identities
  · intro plain ρ _ source delivers
    exact LockedFile.turnsOut_of_opens (LockedFile.opens_ofReader plain delivers) identities
  · intro ρ _ source f delivers reads
    obtain ⟨sink, writes, written⟩ := f.write_unlimited
    exact ⟨sink, writes, written.trans (File.toBytes_of_read delivers reads)⟩

/-- A file whose payload is cut off, in memory and from a source that hands out a few bytes at a time. -/
theorem decryption_agrees_sample :
    let key : FileKey := .zeros 16
    let owner : Identity := { unwrap := fun _ => some (.ok key) }
    let header : Header := .sign key [⟨"tag", ["argument"], [7]⟩]
    let source : Source := { Source.ofBytes (header.toBytes ++ (Block.zeros 16).bytes) with portion? := some 3 }
    ∃ outcome, TurnsOut (LockedFile.unlockRead [owner] (LockedFile.ofBuffered (Buffered.ofReader source))) outcome ∧
      TurnsOut (decryptRead [owner] (File.read source)) outcome ∧
      TurnsOut (LockedFile.unlockRead [owner] (LockedFile.ofReader source)) outcome := by
  intro key owner header source
  have delivers : Reader.Delivers none source (header.toBytes ++ (Block.zeros 16).bytes) :=
    Source.delivers source (by simp [source])
  have nonce := @Header.leavesNonce_append header (Block.zeros 16).bytes rfl (Nat.le_refl 16)
  obtain ⟨⟨outcome, buffered, inMemory, detected⟩, _⟩ :=
    decryption_agrees (header.toBytes ++ (Block.zeros 16).bytes) [owner]
  exact ⟨outcome, buffered delivers, inMemory nonce delivers, detected (header.not_isArmored _) delivers⟩

end AgeCrypt
