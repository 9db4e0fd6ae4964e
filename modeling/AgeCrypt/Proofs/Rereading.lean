import AgeCrypt.Proofs.RoundTrip

/-!
# Reading back what was encrypted

Encryption writes whatever stanzas its recipients make, but a file is only read back if their tags and arguments are
visible texts and a passphrase stanza stands alone (`File.readBack_iff`). So what an encryption writes is read back
exactly if these conditions hold of its header (`readBack_iff_of_encrypted`), and it is for all recipients that make
stanzas as a header may hold them (`readBack_of_isProper`), as those of the library do (`X25519.isProper`,
`Passphrase.isProper`).
-/

namespace AgeCrypt

/-- From these bytes, the file is read as it is, and it is accepted up to its payload. -/
def File.ReadBack (f : File) (bs : Bytes) : Prop :=
  ∀ (σ : Type) [Reader σ] (source : σ), Reader.Delivers none source bs →
    File.read source = .ok f ∧ ∃ locked, LockedFile.ofBuffered (Buffered.ofReader source) = .ok locked

section
variable {σ : Type} [Reader σ] {source : σ} {f : File}

/-- A file is read as it was written exactly if its tags and arguments are visible texts. -/
theorem File.read_iff_isWritable (enough : 16 ≤ f.body.length) (delivers : Reader.Delivers none source f.toBytes) :
    File.read source = .ok f ↔ f.header.isWritable = true := by
  have holds := Buffered.holds_ofReader delivers
  constructor
  · intro reads
    unfold File.read at reads
    split at reads
    · cases reads
    rename_i header r' parsed
    have writable := (Header.read_of_holds holds parsed).1
    dsimp only at reads
    split at reads
    · cases reads
    split at reads
    · cases reads
    · cases reads
      exact writable
  · intro writable
    obtain ⟨r, parsed, left⟩ := Header.read_toBytes writable holds
    obtain ⟨r', drained⟩ := Reader.drain_of_delivers (Buffered.delivers_of_holds left)
    simp only [File.read, parsed, drained, if_neg (Nat.not_lt.2 enough)]

/-- A file that can be read is accepted up to its payload exactly if passphrases stand alone in it. -/
theorem LockedFile.exists_ofBuffered_iff (writable : f.header.isWritable = true) (enough : 16 ≤ f.body.length)
    (delivers : Reader.Delivers none source f.toBytes) :
    (∃ locked, ofBuffered (Buffered.ofReader source) = .ok locked) ↔ f.header.passphraseAlone = true := by
  have holds := Buffered.holds_ofReader delivers
  constructor
  · rintro ⟨locked, accepts⟩
    obtain ⟨r, parsed, _⟩ := Header.read_toBytes writable holds
    simp only [ofBuffered, parsed, ofHeader] at accepts
    by_cases alone : f.header.passphraseAlone = true
    · exact alone
    · simp [alone] at accepts
  · intro alone
    have nonce : f.toBytes = f.header.toBytes ++ (f.body.take 16 ++ f.body.drop 16) := by
      rw [List.take_append_drop]
      rfl
    rw [nonce] at holds
    obtain ⟨input, accepts, _⟩ := ofBuffered_toBytes writable alone ⟨f.body.take 16, List.length_take_of_le enough⟩ holds
    exact ⟨_, accepts⟩

theorem File.readBack_iff (enough : 16 ≤ f.body.length) :
    f.ReadBack f.toBytes ↔ f.header.isWritable = true ∧ f.header.passphraseAlone = true := by
  constructor
  · intro readBack
    have delivers := Source.delivers_ofBytes f.toBytes
    obtain ⟨reads, accepts⟩ := readBack Source _ delivers
    have writable := (File.read_iff_isWritable enough delivers).1 reads
    exact ⟨writable, (LockedFile.exists_ofBuffered_iff writable enough delivers).1 accepts⟩
  · rintro ⟨writable, alone⟩
    intro σ _ source delivers
    exact ⟨(File.read_iff_isWritable enough delivers).2 writable,
      (LockedFile.exists_ofBuffered_iff writable enough delivers).2 alone⟩

end

/-- The file of a prologue and a payload. -/
def Prologue.inMemory (p : Prologue) (payload : Bytes) : File := ⟨p.header, p.nonce.bytes ++ Chunk.layout p.cipher payload⟩

theorem Prologue.enough_inMemory (p : Prologue) (payload : Bytes) : 16 ≤ (p.inMemory payload).body.length := by
  rw [inMemory, List.length_append, p.nonce.length_bytes]
  omega

/-- A file in memory is written behind its header, or there is no room for it. -/
theorem File.write_of_records {ω : Type} [Writer ω] {room : Bytes → Prop} {recorded : ω → Bytes → Prop} {w : ω} {before : Bytes}
    (records : Writer.Records room recorded) (holds : recorded w before) (f : File) :
    (∃ w', f.write w = (.ok (), w') ∧ recorded w' (before ++ f.toBytes)) ∨
    (∃ e w', f.write w = (.error e, w') ∧ ¬ room (before ++ f.toBytes)) := by
  rw [File.write, toBytes, ← List.append_assoc]
  rcases Header.write_of_records records holds f.header with ⟨v, step, behind⟩ | ⟨e, v, step, full⟩
  · rw [step]
    exact Writer.writeAll_of_records records behind f.body
  · rw [step]
    exact .inr ⟨e, v, rfl, fun fits => full (records.room_of_append fits)⟩

/-- A file in memory is written into a sink that takes everything. -/
theorem File.write_unlimited (f : File) : ∃ sink, f.write Sink.unlimited = (.ok (), sink) ∧ sink.bytes = f.toBytes := by
  rcases f.write_of_records Sink.unlimited.records Sink.unlimited.recorded_refl with ⟨sink, writes, written, _⟩ | ⟨_, _, _, full⟩
  · exact ⟨sink, writes, written⟩
  · exact absurd (Sink.room_unlimited #[] _) full

section
variable {ρ : Type} [Reader ρ] {stop? : Option ChannelError} {input : ρ} {plaintext : Bytes} {recipients : List Recipient}
  {randomness : Randomness}

theorem exists_prepares_of_inMemory {f : File} {later : Randomness} {events : List Event}
    (ok : encryptInMemory recipients input randomness = (.ok f, later, events)) : ∃ p, Prepares recipients randomness p := by
  unfold encryptInMemory at ok
  split at ok
  · cases ok
  rename_i audience allowed
  split at ok
  · cases ok
  rename_i p later drawn
  exact ⟨p, audience, later, allowed, drawn⟩

/-- What encryption in memory with a prologue gives if it succeeds, and when it does. -/
theorem encryptInMemory_of_prepares (delivers : Reader.Delivers stop? input plaintext) {p : Prologue}
    (prepares : Prepares recipients randomness p) :
    (∀ f later events, encryptInMemory recipients input randomness = (.ok f, later, events) → f = p.inMemory plaintext) ∧
    (stop? = none → plaintext.length ≤ ChunkNonce.range * Chunk.size →
      ∃ later events, encryptInMemory recipients input randomness = (.ok (p.inMemory plaintext), later, events)) := by
  obtain ⟨audience, later, allowed, drawn⟩ := prepares
  unfold encryptInMemory
  rw [allowed]
  dsimp only
  rw [drawn]
  dsimp only
  let body : Sink := { Sink.unlimited with contents := p.nonce.bytes.toArray }
  rcases @writePayload_of_records _ _ _ _ p.cipher _ _ _ _ _ _ delivers body.records _ body.recorded_refl with
    ⟨_, _, sink, step, bytes, _⟩ | ⟨e, sink, step, reason⟩
  · rw [step]
    have same : sink.bytes = p.nonce.bytes ++ Chunk.layout p.cipher plaintext := by
      rw [bytes, List.nil_append]
      rfl
    dsimp only
    rw [same]
    constructor
    · intro f later events ok
      cases ok
      rfl
    · intro _ _
      exact ⟨_, _, rfl⟩
  · rw [step]
    constructor
    · intro f later events ok
      cases ok
    · intro clean few
      rcases reason with stops | full
      · rw [clean] at stops
        cases stops
      · exact absurd ⟨few, Sink.room_unlimited _⟩ full

/-- What is written of a file that was encrypted in memory. -/
theorem written_of_inMemory (delivers : Reader.Delivers stop? input plaintext) {f : File} {later : Randomness}
    {events : List Event} (ok : encryptInMemory recipients input randomness = (.ok f, later, events)) :
    ∃ p sink, Prepares recipients randomness p ∧ f = p.inMemory plaintext ∧
      f.write Sink.unlimited = (.ok (), sink) ∧ sink.bytes = (p.inMemory plaintext).toBytes := by
  obtain ⟨p, prepares⟩ := exists_prepares_of_inMemory ok
  obtain rfl := (encryptInMemory_of_prepares delivers prepares).1 f later events ok
  obtain ⟨sink, writes, written⟩ := File.write_unlimited (p.inMemory plaintext)
  exact ⟨p, sink, prepares, rfl, writes, written⟩

/-- The binary format holds the same file. -/
theorem written_of_binary (delivers : Reader.Delivers stop? input plaintext)
    (ok : (encrypt recipients input Sink.unlimited .binary randomness).result = .ok ()) :
    ∃ p, Prepares recipients randomness p ∧
      (encrypt recipients input Sink.unlimited .binary randomness).output.bytes = (p.inMemory plaintext).toBytes := by
  obtain ⟨p, prepares⟩ := exists_prepares ok
  obtain ⟨_, _, bytes, _⟩ :=
    (encrypt_of_records delivers Sink.unlimited.records Sink.unlimited.recorded_refl prepares .binary).1 ok
  exact ⟨p, prepares, bytes⟩

end

/-- The stanzas that a recipient makes are such as a header may hold, and a passphrase stanza is one of them only if the
    recipient says that it uses a passphrase, and makes no other. -/
def Recipient.IsProper (r : Recipient) : Prop :=
  ∀ key randomness stanzas labels later, (r.wrap key).run randomness = (.ok (stanzas, labels), later) →
    ∀ s ∈ stanzas, s.isWritable = true ∧ (s.tag = Header.passphraseTag → r.isPassphrase = true ∧ stanzas = [s])

theorem X25519.isProper (key : PublicKey) : (recipient key).IsProper := by
  intro fileKey randomness stanzas labels later wraps s member
  cases wraps
  obtain rfl := List.mem_singleton.1 member
  have other : tag ≠ Header.passphraseTag := by decide
  exact ⟨isWritable_wrapWith _ key fileKey, fun same => absurd same other⟩

theorem Passphrase.isProper (text : String) (workFactor : WorkFactor) : (recipient text workFactor).IsProper := by
  intro fileKey randomness stanzas labels later wraps s member
  cases wraps
  obtain rfl := List.mem_singleton.1 member
  exact ⟨isWritable_wrapWith _ text workFactor fileKey, fun _ => ⟨rfl, rfl⟩⟩

/-- The stanzas for proper recipients may stand in a header, and one for a passphrase is the only one of a recipient
    who uses a passphrase. -/
theorem Audience.wrapEach_of_isProper {key : FileKey} {labels? : Option LabelSet} {recipients : List Recipient}
    {randomness later : Randomness} {stanzas : List Stanza} (proper : ∀ r ∈ recipients, r.IsProper)
    (wraps : (wrapEach key labels? recipients).run randomness = (.ok stanzas, later)) :
    ∀ s ∈ stanzas, s.isWritable = true ∧ (s.tag = Header.passphraseTag →
      (∃ r ∈ recipients, r.isPassphrase = true) ∧ (recipients.length = 1 → stanzas = [s])) := by
  induction recipients generalizing labels? randomness stanzas with
  | nil =>
    cases wraps
    exact List.forall_mem_nil _
  | cons recipient recipients ih =>
    obtain ⟨own, labels, middle, first, rest, step, others, rfl⟩ := wrapEach_cons wraps
    obtain ⟨here, proper⟩ := List.forall_mem_cons.1 proper
    intro s member
    rcases List.mem_append.1 member with member | member
    · obtain ⟨writable, declared⟩ := here _ _ _ _ _ step s member
      refine ⟨writable, fun tag => ⟨⟨recipient, List.mem_cons_self, (declared tag).1⟩, fun single => ?_⟩⟩
      obtain rfl : recipients = [] := List.length_eq_zero_iff.1 (Nat.succ.inj single)
      cases others
      rw [List.append_nil, (declared tag).2]
    · obtain ⟨writable, declared⟩ := ih proper others s member
      refine ⟨writable, fun tag => ?_⟩
      obtain ⟨r, found, uses⟩ := (declared tag).1
      refine ⟨⟨r, List.mem_cons_of_mem _ found, uses⟩, fun single => ?_⟩
      obtain rfl : recipients = [] := List.length_eq_zero_iff.1 (Nat.succ.inj single)
      cases found

/-- The header for proper recipients is one that can be read and is accepted. -/
theorem readable_of_isProper {recipients : List Recipient} {randomness : Randomness} {p : Prologue}
    (proper : ∀ r ∈ recipients, r.IsProper) (prepares : Prepares recipients randomness p) :
    p.header.isWritable = true ∧ p.header.passphraseAlone = true := by
  obtain ⟨stanzas, later, wraps, header, _⟩ := stanzas_of_prepares prepares
  obtain ⟨audience, _, allowed, _⟩ := prepares
  have held : p.header.recipients = stanzas := by
    rw [header]
    rfl
  have all := Audience.wrapEach_of_isProper proper wraps
  rw [Header.isWritable, Header.passphraseAlone, Header.hasPassphrase, held]
  refine ⟨List.all_eq_true.2 fun s member => (all s member).1, ?_⟩
  by_cases some : ∃ s ∈ stanzas, s.tag = Header.passphraseTag
  · obtain ⟨s, member, tag⟩ := some
    obtain ⟨⟨r, found, uses⟩, alone⟩ := (all s member).2 tag
    have single : recipients.length = 1 := by
      rw [← Audience.recipients_of_ofRecipients allowed] at found ⊢
      refine audience.passphraseAlone.resolve_right fun others => ?_
      have plain := List.all_eq_true.1 others r found
      simp [uses] at plain
    simp [alone single]
  · have none : (stanzas.any fun s => s.tag = Header.passphraseTag) = false := by
      refine List.any_eq_false.2 fun s member tag => ?_
      exact some ⟨s, member, of_decide_eq_true tag⟩
    simp [none]

section
variable {ρ : Type} [Reader ρ] {stop? : Option ChannelError} {input : ρ} {plaintext : Bytes} {recipients : List Recipient}
  {randomness : Randomness}

/-- What is encrypted to proper recipients is read back. -/
theorem readBack_of_isProper (delivers : Reader.Delivers stop? input plaintext) (proper : ∀ r ∈ recipients, r.IsProper) :
    (∀ f later events, encryptInMemory recipients input randomness = (.ok f, later, events) →
      ∃ sink, f.write Sink.unlimited = (.ok (), sink) ∧ f.ReadBack sink.bytes) ∧
    ((encrypt recipients input Sink.unlimited .binary randomness).result = .ok () →
      ∃ p, Prepares recipients randomness p ∧
        (p.inMemory plaintext).ReadBack (encrypt recipients input Sink.unlimited .binary randomness).output.bytes) := by
  constructor
  · intro f later events ok
    obtain ⟨p, sink, prepares, rfl, writes, written⟩ := written_of_inMemory delivers ok
    refine ⟨sink, writes, ?_⟩
    rw [written, File.readBack_iff (p.enough_inMemory plaintext)]
    exact readable_of_isProper proper prepares
  · intro ok
    obtain ⟨p, prepares, bytes⟩ := written_of_binary delivers ok
    refine ⟨p, prepares, ?_⟩
    rw [bytes, File.readBack_iff (p.enough_inMemory plaintext)]
    exact readable_of_isProper proper prepares

/-- What an encryption gives, in memory or in the binary format, is read back exactly if the tags and arguments of the
    stanzas that its recipients made are visible texts and a passphrase stanza stands alone. -/
theorem readBack_iff_of_encrypted (delivers : Reader.Delivers stop? input plaintext) :
    (∀ f later events, encryptInMemory recipients input randomness = (.ok f, later, events) →
      ∃ sink, f.write Sink.unlimited = (.ok (), sink) ∧
        (f.ReadBack sink.bytes ↔ f.header.isWritable = true ∧ f.header.passphraseAlone = true)) ∧
    ((encrypt recipients input Sink.unlimited .binary randomness).result = .ok () →
      ∃ p, Prepares recipients randomness p ∧
        ((p.inMemory plaintext).ReadBack (encrypt recipients input Sink.unlimited .binary randomness).output.bytes ↔
          p.header.isWritable = true ∧ p.header.passphraseAlone = true)) := by
  constructor
  · intro f later events ok
    obtain ⟨p, sink, prepares, rfl, writes, written⟩ := written_of_inMemory delivers ok
    refine ⟨sink, writes, ?_⟩
    rw [written]
    exact File.readBack_iff (p.enough_inMemory plaintext)
  · intro ok
    obtain ⟨p, prepares, bytes⟩ := written_of_binary delivers ok
    refine ⟨p, prepares, ?_⟩
    rw [bytes]
    exact File.readBack_iff (p.enough_inMemory plaintext)

end

/-- A file for a recipient whose stanza has a visible tag. -/
theorem readBack_iff_of_encrypted_visible :
    let recipient : Recipient := ⟨fun _ => pure ([⟨"tag", [], []⟩], .empty), false⟩
    ∃ f later events sink, encryptInMemory [recipient] (Source.ofBytes [104, 105]) ⟨fun _ => 0, 0⟩ = (.ok f, later, events) ∧
      f.write Sink.unlimited = (.ok (), sink) ∧ f.ReadBack sink.bytes := by
  intro recipient
  have delivers := Source.delivers_ofBytes [104, 105]
  obtain ⟨p, prepares, stanzas⟩ : ∃ p, Prepares [recipient] ⟨fun _ => 0, 0⟩ p ∧ p.header.recipients = [⟨"tag", [], []⟩] :=
    ⟨_, ⟨_, _, rfl, rfl⟩, rfl⟩
  obtain ⟨later, events, ok⟩ := (encryptInMemory_of_prepares delivers prepares).2 rfl (by decide)
  obtain ⟨sink, writes, readable⟩ := (readBack_iff_of_encrypted delivers).1 _ _ _ ok
  refine ⟨_, later, events, sink, ok, writes, readable.2 ?_⟩
  rw [Prologue.inMemory, Header.isWritable, Header.passphraseAlone, Header.hasPassphrase, stanzas]
  decide

/-- A tag with a space in it is written, but it is read as a tag and an argument. -/
theorem not_readBack_of_space :
    let recipient : Recipient := ⟨fun _ => pure ([⟨"a b", [], []⟩], .empty), false⟩
    ∃ f later events sink, encryptInMemory [recipient] (Source.ofBytes [104, 105]) ⟨fun _ => 0, 0⟩ = (.ok f, later, events) ∧
      f.write Sink.unlimited = (.ok (), sink) ∧ File.read (Source.ofBytes sink.bytes) ≠ .ok f := by
  intro recipient
  have delivers := Source.delivers_ofBytes [104, 105]
  obtain ⟨p, prepares, stanzas⟩ : ∃ p, Prepares [recipient] ⟨fun _ => 0, 0⟩ p ∧ p.header.recipients = [⟨"a b", [], []⟩] :=
    ⟨_, ⟨_, _, rfl, rfl⟩, rfl⟩
  obtain ⟨later, events, ok⟩ := (encryptInMemory_of_prepares delivers prepares).2 rfl (by decide)
  obtain ⟨sink, writes, written⟩ := File.write_unlimited (p.inMemory [104, 105])
  refine ⟨_, later, events, sink, ok, writes, ?_⟩
  rw [written, ne_eq, File.read_iff_isWritable (p.enough_inMemory _) (Source.delivers_ofBytes _)]
  rw [Prologue.inMemory, Header.isWritable, stanzas]
  decide

end AgeCrypt
