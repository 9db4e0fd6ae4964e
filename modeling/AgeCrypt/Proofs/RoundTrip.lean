import AgeCrypt.Proofs.FileWriting
import AgeCrypt.Proofs.PayloadIntegrity

/-!
# Files there and back

A file that was encrypted is decrypted to the plaintext by every list of identities in which the first one that does not
give up on its stanzas corresponds to a recipient (`decrypt_encrypt`). Header, armor and payload are each read as they were
written; what is left to assume are the exchanges of keys, and that the last chunk, if it is full, does not open as one
before the last.
-/

namespace AgeCrypt

section
variable {σ ω : Type} [Reader σ] [Writer ω] {room : Bytes → Prop} {recorded : ω → Bytes → Prop}

/-- What was written behind a prologue is written out again by an identity that has the file key. -/
theorem decrypt_file {p : Prologue} {payload written : Bytes} {format : Format} {source : σ} {target : ω}
    (delivers : Reader.Delivers none source (format.encode (p.file payload))) (records : Writer.Records room recorded)
    (holds : recorded target written) (fits : room (written ++ payload)) (few : (Chunk.split payload).length ≤ ChunkNonce.range)
    (marked : Chunk.Marked p.cipher payload) (writable : p.header.isWritable = true) (alone : p.header.passphraseAlone = true)
    {identity : Identity} {key : FileKey} (opens : identity.unwrapAll p.header.recipients = .ok key)
    (right : p.header.hasMac key = true) (derived : p.payloadKey = key.payloadKey p.nonce)
    {before : List Identity} (give : ∀ i ∈ before, i.GivesUp p.header.recipients) (after : List Identity) :
    (decrypt (before ++ identity :: after) source target).result = .ok () ∧
      recorded (decrypt (before ++ identity :: after) source target).output (written ++ payload) := by
  have plain := ArmorReader.delivers delivers
  rw [Prologue.file, unarmor_format] at plain
  obtain ⟨input, reads, sealed⟩ := LockedFile.ofBuffered_toBytes writable alone p.nonce (Buffered.holds_ofReader plain)
  obtain ⟨reasons, give⟩ := Identity.exists_giveUpFor give
  have unlocks := @LockedFile.unlock_append _ _ ⟨p.header, p.nonce, input⟩ _ _ _ _ give opens right after
  have opened := PayloadReader.delivers p.cipher sealed
  rw [Chunk.openFrom_layout (fun _ _ => Aead.decrypt_eq_some_iff.2 rfl) marked few, Chunk.flatten_split, Prologue.cipher,
    derived] at opened
  unfold decrypt LockedFile.ofReader
  rw [reads]
  dsimp only
  rw [unlocks]
  dsimp only
  rcases copy_of_records opened records holds with ⟨r, w, step, behind⟩ | ⟨e, r, w, _, full⟩
  · rw [step]
    obtain ⟨w', flushed, behind⟩ := records.flush_ok behind
    dsimp only [Option.elim]
    rw [flushed]
    exact ⟨rfl, behind⟩
  · exact absurd fits full

end

/-- An encryption that succeeds had a prologue. -/
theorem exists_prepares {ρ ω : Type} [Reader ρ] [Writer ω] {recipients : List Recipient} {input : ρ} {output : ω}
    {format : Format} {randomness : Randomness} (ok : (encrypt recipients input output format randomness).result = .ok ()) :
    ∃ p, Prepares recipients randomness p := by
  unfold encrypt at ok
  split at ok
  · cases ok
  rename_i audience allowed
  split at ok
  · cases ok
  split at ok
  · cases ok
  rename_i p later drawn
  exact ⟨p, audience, later, allowed, drawn⟩

/-- An encryption that succeeds appends a file to its output, from which decryption gives the plaintext back, whatever
    reads the file and whichever identities come before and behind the one that corresponds to a recipient. -/
theorem decrypt_encrypt {ρ : Type} [Reader ρ] {stop? : Option ChannelError} {input : ρ} {plaintext : Bytes}
    (delivers : Reader.Delivers stop? input plaintext) {recipients : List Recipient} {identity : Identity}
    {randomness : Randomness} (corresponds : Corresponds randomness recipients identity) {output : Sink} {format : Format}
    (ok : (encrypt recipients input output format randomness).result = .ok ()) :
    ∃ p, Prepares recipients randomness p ∧
      (encrypt recipients input output format randomness).output.bytes =
        output.bytes ++ format.encode (p.file plaintext) ∧
      (Chunk.Marked p.cipher plaintext →
        ∀ (σ : Type) [Reader σ] (source : σ), Reader.Delivers none source (format.encode (p.file plaintext)) →
        ∀ before after, (∀ i ∈ before, Identity.GivesUp i p.header.recipients) →
          (decrypt (before ++ identity :: after) source Sink.unlimited).result = .ok () ∧
          (decrypt (before ++ identity :: after) source Sink.unlimited).output.bytes = plaintext) := by
  obtain ⟨p, prepares⟩ := exists_prepares ok
  obtain ⟨written, _⟩ := encrypt_of_records delivers output.records output.recorded_refl prepares format
  obtain ⟨_, few, recorded⟩ := written ok
  obtain ⟨writable, alone, key, opens, right, derived⟩ := corresponds.opens prepares
  refine ⟨p, prepares, recorded.1, ?_⟩
  intro marked σ _ source received before after give
  obtain ⟨decrypts, bytes, _⟩ := decrypt_file received Sink.unlimited.records Sink.unlimited.recorded_refl
    (Sink.room_unlimited #[] _) few marked writable alone opens right derived give after
  exact ⟨decrypts, bytes⟩

theorem decrypt_encrypt_hi :
    let secret : X25519.SecretKey := ⟨.zeros 32⟩
    let other : Recipient := ⟨fun _ => pure ([⟨"tag", ["argument"], [7]⟩], .empty), false⟩
    let stranger : Identity := { unwrap := fun _ => none }
    let encrypted := encrypt [X25519.recipient secret.toPublic, other] (Source.ofBytes [104, 105]) Sink.unlimited .armored
      ⟨fun _ => 0, 0⟩
    encrypted.result = .ok () ∧
      (decrypt [stranger, X25519.identity secret] (Source.ofBytes encrypted.output.bytes) Sink.unlimited).output.bytes =
        [104, 105] := by
  intro secret other stranger encrypted
  have foreign : Party.IsForeign other := by
    intro key randomness stanzas labels later wraps s member
    cases wraps
    obtain rfl := List.mem_singleton.1 member
    decide
  have contributes : Curve25519.contributory (Curve25519.sharedSecret secret.block secret.toPublic.block) = true := by
    decide +kernel
  -- The ephemeral secret is the secret itself, since both consist of zeros.
  have agreement : X25519.Agreement secret (.zeros 16) [(secret.toPublic, secret)] := by
    refine ⟨?_, ?_, ?_⟩
    · intro ephemeral member
      obtain ⟨_, rfl⟩ := Prod.mk.inj (List.mem_singleton.1 member)
      rfl
    · intro key ephemeral member
      obtain ⟨_, rfl⟩ := Prod.mk.inj (List.mem_singleton.1 member)
      exact contributes
    · intro key ephemeral member differ
      exact absurd (Prod.mk.inj (List.mem_singleton.1 member)).1 differ
  have corresponds : Corresponds ⟨fun _ => 0, 0⟩ [X25519.recipient secret.toPublic, other] (X25519.identity secret) := by
    refine @Corresponds.x25519 _ [.x25519 secret.toPublic, .foreign other] secret List.mem_cons_self ?_ agreement
    intro r member
    rcases List.mem_cons.1 member with equal | member
    · cases equal
    · cases List.mem_singleton.1 member
      exact foreign
  have delivers := Source.delivers_ofBytes [104, 105]
  have ok : encrypted.result = .ok () := by
    obtain ⟨p, prepares⟩ : ∃ p, Prepares [X25519.recipient secret.toPublic, other] ⟨fun _ => 0, 0⟩ p :=
      ⟨_, _, _, rfl, rfl⟩
    refine (encrypt_of_records delivers Sink.unlimited.records Sink.unlimited.recorded_refl prepares .armored).2 rfl ?_
    exact ⟨by decide, Sink.room_unlimited #[]⟩
  refine ⟨ok, ?_⟩
  obtain ⟨p, _, bytes, decrypts⟩ := decrypt_encrypt delivers corresponds ok
  have give : ∀ i ∈ [stranger], i.GivesUp p.header.recipients :=
    List.forall_mem_singleton.2 ((Identity.givesUp_iff (Identity.triesEach_mk _)).2 fun _ _ => rfl)
  have source : Reader.Delivers none (Source.ofBytes encrypted.output.bytes) (Format.armored.encode (p.file [104, 105])) := by
    rw [bytes]
    exact Source.delivers_ofBytes _
  exact (decrypts (Chunk.marked_of_short _ (by decide)) _ _ source _ [] give).2

end AgeCrypt
