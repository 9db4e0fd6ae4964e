import AgeCrypt.Proofs.PayloadReading
import AgeCrypt.Proofs.PayloadWriting

/-!
# What a payload that was read to its end shows

A payload has one encryption under a key, and a payload reader that reaches its end without a failure has read just
that one (`PayloadReader.canonical_of_ended`). Where the cipher opens nothing but the chunks that were encrypted of one
payload, a reader of any other byte string returns bytes from the start of that payload and then fails
(`PayloadReader.authentic_of_opensOnly`).
-/

namespace AgeCrypt

/-- Writes a payload part by part and finishes it, into an empty sink. -/
def writeParts (cipher : Cipher) (parts : List Bytes) : Except ChannelError Unit × Sink :=
  match Writer.writeEach (PayloadWriter.start cipher Sink.unlimited) parts with
  | (.error e, w) => (.error e, w.output.inner)
  | (.ok (), w) =>
    match w.finish with
    | (result, w') => (result, w'.output.inner)

/-- The layout of the payload is written, however it was cut into parts, if there are numbers for its chunks. -/
theorem writeParts_cases (cipher : Cipher) (parts : List Bytes) :
    (∃ sink, writeParts cipher parts = (.ok (), sink) ∧ sink.bytes = Chunk.layout cipher parts.flatten ∧
      (Chunk.split parts.flatten).length ≤ ChunkNonce.range) ∨
    (∃ e sink, writeParts cipher parts = (.error e, sink) ∧ ChunkNonce.range * Chunk.size < parts.flatten.length) := by
  have records := Sink.unlimited.records
  unfold writeParts
  rcases Writer.writeEach_of_records (PayloadWriter.records records cipher [])
    (PayloadWriter.recorded_start (Sink.recorded_refl Sink.unlimited)) parts with ⟨w, step, behind⟩ | ⟨e, w, step, full⟩
  · obtain ⟨few, finished⟩ := PayloadWriter.finish_of_recorded (Writer.writeAll_of_records records) behind
    rw [step]
    rcases finished with ⟨w', finishes, written, _⟩ | ⟨e, w', finishes, full⟩
    · exact .inl ⟨w'.output.inner, by simp [finishes], written, few⟩
    · exact absurd (Sink.room_unlimited #[] _) full
  · rw [step]
    refine .inr ⟨e, _, rfl, Nat.lt_of_not_le fun le => full ⟨le, ?_⟩⟩
    exact Sink.room_unlimited #[]

namespace PayloadReader
variable {ρ : Type} [Reader ρ]

/-- Under a cipher that opens exactly what it encrypts, a reader that ends has read the layout of what it returned:
    full chunks before a last one, which is empty only if it is alone, and nothing behind it. -/
theorem layout_of_ended {cipher : Cipher}
    (inverse : ∀ nonce sealed message, cipher.decrypt nonce sealed = some message → sealed = cipher.encrypt nonce message)
    {inner : ρ} {sealed : Bytes} (delivers : Reader.Delivers none inner sealed) (sizes : List Nat) {n : Nat}
    (asked : n ≠ 0) {r' : PayloadReader ρ}
    (clean : Reader.read (Reader.readEach (start cipher inner) sizes).2 n = (.ok [], r')) :
    ∃ full last, IsCut Chunk.size full last ∧ full.length < ChunkNonce.range ∧
      Reader.returned (Reader.readEach (start cipher inner) sizes).1 = full.flatten ++ last ∧
      sealed = Chunk.innerFrom cipher 0 full ++ cipher.encrypt (ChunkNonce.toBlock ⟨full.length, true⟩) last := by
  obtain ⟨rest, whole, left⟩ := readEach_of_expects (expects_start cipher delivers) sizes
  obtain ⟨rfl, ended⟩ := ended_of_expects left asked clean
  rw [List.append_nil] at whole
  have opens : Chunk.openFrom cipher none 0 sealed = ((Chunk.openFrom cipher none 0 sealed).1, none) :=
    Prod.ext rfl ended
  obtain ⟨layout, _, full, last, chunks, full_length, last_length, alone⟩ := Chunk.layoutFrom_of_openFrom inverse opens
  have few := Chunk.length_of_openFrom (by decide) opens
  rw [chunks, List.length_append, List.length_singleton, Nat.zero_add] at few
  refine ⟨full, last, ⟨full_length, last_length, fun empty => (alone empty).1⟩, few, ?_, ?_⟩
  · rw [← whole, chunks]
    simp
  · rw [layout, chunks, Chunk.layoutFrom_append, Nat.zero_add]

/-- There is one encrypted payload for each plaintext: what was read to its end is what a writer under the same key
    writes for the bytes that were returned, however they are given to it. -/
theorem canonical_of_ended (key : Block 32) {inner : ρ} {sealed : Bytes} (delivers : Reader.Delivers none inner sealed)
    (sizes : List Nat) {n : Nat} (asked : n ≠ 0) {r' : PayloadReader ρ}
    (clean : Reader.read (Reader.readEach (start (.chaCha20Poly1305 key) inner) sizes).2 n = (.ok [], r')) :
    (∃ full last, IsCut Chunk.size full last ∧
      Reader.returned (Reader.readEach (start (.chaCha20Poly1305 key) inner) sizes).1 = full.flatten ++ last ∧
      sealed = Chunk.innerFrom (.chaCha20Poly1305 key) 0 full ++
        Aead.encrypt key (ChunkNonce.toBlock ⟨full.length, true⟩) last) ∧
    ∀ parts, parts.flatten = Reader.returned (Reader.readEach (start (.chaCha20Poly1305 key) inner) sizes).1 →
      ∃ sink, writeParts (.chaCha20Poly1305 key) parts = (.ok (), sink) ∧ sink.bytes = sealed := by
  obtain ⟨full, last, isCut, few, whole, layout⟩ :=
    layout_of_ended (fun _ _ _ => Aead.decrypt_eq_some_iff.1) delivers sizes asked clean
  refine ⟨⟨full, last, isCut, whole, layout⟩, ?_⟩
  intro parts same
  rw [whole] at same
  have split : Chunk.split parts.flatten = full ++ [last] := by
    rw [same]
    exact cut_flatten isCut
  rcases writeParts_cases (.chaCha20Poly1305 key) parts with ⟨sink, writes, written, _⟩ | ⟨e, sink, _, long⟩
  · refine ⟨sink, writes, ?_⟩
    rw [written, Chunk.layout, split, Chunk.layoutFrom_append, layout, Nat.zero_add]
  · have chunks : (Chunk.split parts.flatten).length ≤ ChunkNonce.range := by
      rwa [split, List.length_append, List.length_singleton]
    exact absurd (length_le_of_split chunks) (Nat.not_le.2 long)

theorem expects_layout {cipher : Cipher} {payload : Bytes}
    (inverts : ∀ nonce message, cipher.decrypt nonce (cipher.encrypt nonce message) = some message)
    (marked : Chunk.Marked cipher payload) (few : (Chunk.split payload).length ≤ ChunkNonce.range) {inner : ρ}
    (delivers : Reader.Delivers none inner (Chunk.layout cipher payload)) :
    Expects none (start cipher inner) payload none := by
  have expects := expects_start cipher delivers
  rw [Chunk.openFrom_layout inverts marked few] at expects
  rwa [Chunk.flatten_split] at expects

theorem canonical_of_ended_hi :
    ∃ sink, writeParts (.chaCha20Poly1305 (.zeros 32)) [[104], [105]] = (.ok (), sink) ∧
      sink.bytes = Chunk.layout (.chaCha20Poly1305 (.zeros 32)) [104, 105] := by
  have marked : Chunk.Marked (.chaCha20Poly1305 (.zeros 32)) [104, 105] := Chunk.marked_of_short _ (by decide)
  have delivers := Source.delivers_ofBytes (Chunk.layout (.chaCha20Poly1305 (.zeros 32)) [104, 105])
  have few : (Chunk.split [104, 105]).length ≤ ChunkNonce.range := by
    rw [Chunk.split_of_le (by decide)]
    decide
  have expects := expects_layout (fun _ _ => Aead.decrypt_eq_some_iff.2 rfl) marked few delivers
  obtain ⟨all, r', clean⟩ := readEach_replicate_of_expects expects
  exact (canonical_of_ended (.zeros 32) delivers [1, 1] Nat.one_ne_zero clean).2 [[104], [105]] all.symm

/-- Where the cipher opens only the chunks that were encrypted of a payload, what calls return is always a start of
    that payload, and no byte string but the one that was written is read to its end. -/
theorem authentic_of_opensOnly {cipher : Cipher} {parts : List Bytes} {sink : Sink}
    (writes : writeParts cipher parts = (.ok (), sink))
    (authentic : cipher.OpensOnly (Chunk.sealsFrom 0 (Chunk.split parts.flatten))) {inner : ρ} {received : Bytes}
    (delivers : Reader.Delivers none inner received) (sizes : List Nat) :
    Reader.returned (Reader.readEach (start cipher inner) sizes).1 <+: parts.flatten ∧
    ∀ n r', n ≠ 0 → Reader.read (Reader.readEach (start cipher inner) sizes).2 n = (.ok [], r') →
      received = sink.bytes ∧ Reader.returned (Reader.readEach (start cipher inner) sizes).1 = parts.flatten := by
  obtain ⟨written, few⟩ : sink.bytes = Chunk.layout cipher parts.flatten ∧
      (Chunk.split parts.flatten).length ≤ ChunkNonce.range := by
    rcases writeParts_cases cipher parts with ⟨sink', ok, written, few⟩ | ⟨e, sink', fails, _⟩
    · rw [writes] at ok
      cases ok
      exact ⟨written, few⟩
    · rw [writes] at fails
      cases fails
  have joined := Chunk.flatten_split parts.flatten
  have first : 0 < ChunkNonce.range := by decide
  have opened := Chunk.openFrom_of_opensOnly authentic few first
    (rfl : Chunk.openFrom cipher none 0 received = (_, _))
  rw [List.drop_zero] at opened
  obtain ⟨⟨others, split⟩, all⟩ := opened
  obtain ⟨rest, whole, left⟩ := readEach_of_expects (expects_start cipher delivers) sizes
  constructor
  · refine ⟨rest ++ others.flatten, ?_⟩
    rw [← joined, ← split, List.flatten_append, whole, List.append_assoc]
  · intro n r' asked clean
    obtain ⟨rfl, ended⟩ := ended_of_expects left asked clean
    obtain ⟨chunks, layout⟩ := all ended
    rw [List.append_nil] at whole
    refine ⟨?_, ?_⟩
    · rw [layout, chunks, written, Chunk.layout]
    · rw [← whole, chunks, joined]

end PayloadReader

namespace Cipher

/-- A cipher that was changed to open nothing but what was encrypted with some nonces. -/
def restrict (cipher : Cipher) (seals : List (ChunkNonce × Bytes)) : Cipher where
  encrypt := cipher.encrypt
  decrypt block sealed :=
    if seals.any fun (nonce, message) => block = nonce.toBlock ∧ sealed = cipher.encrypt nonce.toBlock message then
      cipher.decrypt block sealed
    else none
  length_encrypt := cipher.length_encrypt
  length_of_decrypt := by
    intro block sealed message opens
    split at opens
    · exact cipher.length_of_decrypt opens
    · cases opens

theorem opensOnly_restrict (cipher : Cipher) (seals : List (ChunkNonce × Bytes))
    (inverts : ∀ nonce message, cipher.decrypt nonce (cipher.encrypt nonce message) = some message) :
    (cipher.restrict seals).OpensOnly seals where
  inverts := by
    intro nonce message member
    have known : (seals.any fun pair => nonce.toBlock = pair.1.toBlock ∧
        cipher.encrypt nonce.toBlock message = cipher.encrypt pair.1.toBlock pair.2) = true :=
      List.any_eq_true.2 ⟨(nonce, message), member, by simp⟩
    exact (if_pos known).trans (inverts _ _)
  only := by
    intro block sealed message opens
    dsimp only [restrict] at opens
    split at opens
    · rename_i known
      obtain ⟨⟨nonce, other⟩, member, same⟩ := List.any_eq_true.1 known
      obtain ⟨rfl, rfl⟩ := of_decide_eq_true same
      rw [inverts] at opens
      cases opens
      exact ⟨nonce, member, rfl, rfl⟩
    · cases opens

end Cipher

/-- Two bytes were written, and another byte was put behind what was written. -/
theorem PayloadReader.authentic_of_opensOnly_hi :
    let cipher := (Cipher.chaCha20Poly1305 (.zeros 32)).restrict (Chunk.sealsFrom 0 (Chunk.split [104, 105]))
    ∃ sink, writeParts cipher [[104], [105]] = (.ok (), sink) ∧
      ∀ sizes, Reader.returned (Reader.readEach (start cipher (Source.ofBytes (sink.bytes ++ [0]))) sizes).1 <+: [104, 105] ∧
        ∀ n r', n ≠ 0 → Reader.read (Reader.readEach (start cipher (Source.ofBytes (sink.bytes ++ [0]))) sizes).2 n ≠ (.ok [], r') := by
  intro cipher
  have authentic := Cipher.opensOnly_restrict (.chaCha20Poly1305 (.zeros 32))
    (Chunk.sealsFrom 0 (Chunk.split [104, 105])) (fun _ _ => Aead.decrypt_eq_some_iff.2 rfl)
  rcases writeParts_cases cipher [[104], [105]] with ⟨sink, writes, _⟩ | ⟨e, sink, _, long⟩
  · refine ⟨sink, writes, fun sizes => ?_⟩
    obtain ⟨start_, all⟩ := authentic_of_opensOnly writes authentic (Source.delivers_ofBytes (sink.bytes ++ [0])) sizes
    refine ⟨start_, fun n r' asked clean => ?_⟩
    have longer := congrArg List.length (all n r' asked clean).1
    simp at longer
  · exact absurd long (by decide)

end AgeCrypt
