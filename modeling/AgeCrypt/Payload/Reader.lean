import AgeCrypt.Payload.Chunk
import AgeCrypt.Channel.Reader

/-!
# Reading a payload

Chunks are fetched and decrypted one at a time, and none of the bytes of a chunk is handed out before the chunk
is known to be right, the last one also to have nothing behind it. A full chunk that does not decrypt is tried as
the last one. Once a payload is known to be wrong, every further call fails in the same way.
-/

namespace AgeCrypt

structure PayloadReader (ρ : Type) where
  cipher : Cipher
  nonce : ChunkNonce
  inner : ρ
  /-- The bytes of an encrypted chunk that could not yet be fetched completely. -/
  pending : Bytes
  /-- What is left of the decrypted chunk. -/
  chunk? : Option Bytes
  /-- What is wrong with the payload, once that is known. -/
  failed? : Option PayloadError

namespace PayloadReader
variable {ρ : Type} [Reader ρ]

def start (cipher : Cipher) (inner : ρ) : PayloadReader ρ := ⟨cipher, .first, inner, [], none, none⟩

def bound (r : PayloadReader ρ) : Nat :=
  Reader.remaining r.inner + r.pending.length + (r.chunk?.getD []).length

/-- Fails, now and from now on. -/
def fail (r : PayloadReader ρ) (e : PayloadError) : Except ChannelError Unit × PayloadReader ρ :=
  (.error (.payload e), { r with failed? := some e })

/-- Decrypts the next chunk as the last one or not. -/
def decryptAs (r : PayloadReader ρ) (encrypted : Bytes) (last : Bool) : Option (Bytes × Bool) :=
  (r.cipher.decrypt (r.nonce.marked last).toBlock encrypted).map fun chunk => (chunk, last)

/-- Decrypts the next chunk: a short one as the last, a full one as one before the last and, failing that, as
    the last. -/
def decrypt (r : PayloadReader ρ) (encrypted : Bytes) : Option (Bytes × Bool) :=
  if encrypted.length < Chunk.encryptedSize then r.decryptAs encrypted true
  else (r.decryptAs encrypted false).or (r.decryptAs encrypted true)

def expectEnd (r : PayloadReader ρ) : Except ChannelError Unit × PayloadReader ρ :=
  match Reader.retry r.inner 1 with
  | (.error e, inner) => (.error e, { r with inner })
  | (.ok [], inner) => (.ok (), { r with inner })
  | (.ok (_ :: _), inner) => { r with inner }.fail .trailingData

def accept (r : PayloadReader ρ) (chunk : Bytes) (last : Bool) : Except ChannelError Unit × PayloadReader ρ :=
  match r.nonce.after last with
  | (.error e, nonce) => { r with nonce }.fail e
  | (.ok (), nonce) => (.ok (), { r with nonce, chunk? := some chunk })

/-- Decrypts and accepts an encrypted chunk. -/
def openChunk (r : PayloadReader ρ) (encrypted : Bytes) : Except ChannelError Unit × PayloadReader ρ :=
  if encrypted = [] then r.fail .truncated
  else if encrypted.length = Aead.tagLength ∧ r.nonce.counter ≠ 0 then r.fail .emptyLastChunk
  else
    match r.decrypt encrypted with
    | none => r.fail .undecryptable
    | some (chunk, false) => r.accept chunk false
    | some (chunk, true) =>
      match r.expectEnd with
      | (.error e, r') => (.error e, r')
      | (.ok (), r') => r'.accept chunk true

/-- Fetches, decrypts and accepts the next chunk. What was fetched before a failure is kept. -/
def nextChunk (r : PayloadReader ρ) : Except ChannelError Unit × PayloadReader ρ :=
  let fetched := Reader.fetch r.inner (Chunk.encryptedSize - r.pending.length)
  let encrypted := r.pending ++ fetched.bytes
  match fetched.failure? with
  | some e => (.error e, { r with inner := fetched.reader, pending := encrypted })
  | none => { r with inner := fetched.reader, pending := [] }.openChunk encrypted

/-- Hands out at most `n` bytes of the decrypted chunk. -/
def serve (r : PayloadReader ρ) (n : Nat) : Bytes × PayloadReader ρ :=
  let chunk := r.chunk?.getD []
  let rest := chunk.drop n
  (chunk.take n, { r with chunk? := if rest = [] then none else some rest })

def read (r : PayloadReader ρ) (n : Nat) : Except ChannelError Bytes × PayloadReader ρ :=
  match r.failed? with
  | some e => (.error (.payload e), r)
  | none =>
    if n = 0 ∨ (r.chunk?.isNone ∧ r.nonce.last) then (.ok [], r)
    else
      match if r.chunk?.isNone then r.nextChunk else (.ok (), r) with
      | (.error e, r') => (.error e, r')
      | (.ok (), r') =>
        match r'.serve n with
        | (bs, r'') => (.ok bs, r'')

omit [Reader ρ] in
theorem length_of_decryptAs {r : PayloadReader ρ} {encrypted chunk : Bytes} {last last' : Bool}
    (opens : r.decryptAs encrypted last = some (chunk, last')) : chunk.length ≤ encrypted.length := by
  simp only [decryptAs, Option.map_eq_some_iff, Prod.mk.injEq] at opens
  obtain ⟨c, opens, rfl, _⟩ := opens
  have := r.cipher.length_of_decrypt opens
  omega

omit [Reader ρ] in
theorem length_of_decrypt {r : PayloadReader ρ} {encrypted chunk : Bytes} {last : Bool}
    (opens : r.decrypt encrypted = some (chunk, last)) : chunk.length ≤ encrypted.length := by
  unfold decrypt at opens
  split at opens
  · exact length_of_decryptAs opens
  · rcases Option.or_eq_some_iff.1 opens with opens | ⟨_, opens⟩
    · exact length_of_decryptAs opens
    · exact length_of_decryptAs opens

theorem bound_expectEnd {r r' : PayloadReader ρ} {result : Except ChannelError Unit}
    (ends : r.expectEnd = (result, r')) :
    r'.bound ≤ r.bound ∧ ∀ e, result = .error e → e.isInterruption = false := by
  unfold expectEnd at ends
  split at ends <;> simp only [fail, Prod.mk.injEq] at ends <;> obtain ⟨rfl, rfl⟩ := ends
  · rename_i failed
    have := Reader.retry_error failed
    refine ⟨by simp only [bound]; omega, ?_⟩
    rintro e ⟨⟩
    exact this.2
  · rename_i reads
    have := (Reader.retry_ok reads).2
    exact ⟨by simp only [bound, List.length_nil] at this ⊢; omega, by simp⟩
  · rename_i reads
    have := (Reader.retry_ok reads).2
    refine ⟨by simp only [bound] at this ⊢; omega, ?_⟩
    rintro e ⟨⟩
    rfl

theorem bound_openChunk {r r' : PayloadReader ρ} {encrypted : Bytes} {result : Except ChannelError Unit}
    (opens : r.openChunk encrypted = (result, r')) :
    r'.bound ≤ r.bound + encrypted.length ∧ ∀ e, result = .error e → e.isInterruption = false := by
  have failing : ∀ (s : PayloadReader ρ) (e : PayloadError), s.bound ≤ r.bound + encrypted.length →
      s.fail e = (result, r') →
      r'.bound ≤ r.bound + encrypted.length ∧ ∀ e, result = .error e → e.isInterruption = false := by
    intro s e le same
    simp only [fail, Prod.mk.injEq] at same
    obtain ⟨rfl, rfl⟩ := same
    refine ⟨le, ?_⟩
    rintro e' ⟨⟩
    cases e <;> rfl
  have accepting : ∀ (s : PayloadReader ρ) (chunk : Bytes) (last : Bool),
      s.bound + chunk.length ≤ r.bound + encrypted.length → s.accept chunk last = (result, r') →
      r'.bound ≤ r.bound + encrypted.length ∧ ∀ e, result = .error e → e.isInterruption = false := by
    intro s chunk last le same
    unfold accept at same
    split at same
    · exact failing _ _ (by simp only [bound] at le ⊢; omega) same
    · simp only [Prod.mk.injEq] at same
      obtain ⟨rfl, rfl⟩ := same
      exact ⟨by simp only [bound, Option.getD_some] at le ⊢; omega, by simp⟩
  unfold openChunk at opens
  split at opens
  · exact failing r _ (by omega) opens
  split at opens
  · exact failing r _ (by omega) opens
  split at opens
  · exact failing r _ (by omega) opens
  · rename_i chunk opened
    have := length_of_decrypt opened
    exact accepting r chunk false (by omega) opens
  · rename_i chunk opened
    have := length_of_decrypt opened
    split at opens
    · rename_i e s ended
      simp only [Prod.mk.injEq] at opens
      obtain ⟨rfl, rfl⟩ := opens
      have := bound_expectEnd ended
      exact ⟨by omega, this.2⟩
    · rename_i s ended
      have := (bound_expectEnd ended).1
      exact accepting s chunk true (by omega) opens

theorem bound_nextChunk {r r' : PayloadReader ρ} {result : Except ChannelError Unit}
    (opens : r.nextChunk = (result, r')) :
    r'.bound ≤ r.bound ∧ ∀ e, result = .error e → e.isInterruption = false := by
  have total := Reader.remaining_fetch r.inner (Chunk.encryptedSize - r.pending.length)
  unfold nextChunk at opens
  simp only at opens
  split at opens
  · rename_i e failed
    simp only [Prod.mk.injEq] at opens
    obtain ⟨rfl, rfl⟩ := opens
    refine ⟨by simp only [bound, List.length_append]; omega, ?_⟩
    rintro e ⟨⟩
    exact Reader.fetch_failure failed
  · have := bound_openChunk opens
    refine ⟨?_, this.2⟩
    have le := this.1
    simp only [bound, List.length_append, List.length_nil] at le ⊢
    omega

omit [Reader ρ] in
theorem length_serve (r : PayloadReader ρ) (n : Nat) : (r.serve n).1.length ≤ n := by
  simp only [serve, List.length_take]
  omega

theorem bound_serve (r : PayloadReader ρ) (n : Nat) : (r.serve n).2.bound + (r.serve n).1.length ≤ r.bound := by
  simp only [serve, bound, List.length_take]
  split
  · simp only [Option.getD_none, List.length_nil]
    omega
  · simp only [Option.getD_some, List.length_drop]
    omega

instance : Reader (PayloadReader ρ) where
  read := read
  remaining := bound
  patience _ := 0
  read_ok := by
    intro r n bs r' reads
    unfold read at reads
    split at reads
    · simp at reads
    split at reads
    · simp only [Prod.mk.injEq, Except.ok.injEq] at reads
      obtain ⟨rfl, rfl⟩ := reads
      simp
    split at reads
    · simp at reads
    · rename_i s ready
      have le : s.bound ≤ r.bound := by
        split at ready
        · exact (bound_nextChunk ready).1
        · simp only [Prod.mk.injEq] at ready
          exact Nat.le_of_eq (congrArg bound ready.2.symm)
      simp only [Prod.mk.injEq, Except.ok.injEq] at reads
      obtain ⟨rfl, rfl⟩ := reads
      have := bound_serve s n
      exact ⟨length_serve s n, by omega⟩
  read_error := by
    intro r n e r' reads
    unfold read at reads
    split at reads
    · rename_i known _
      simp only [Prod.mk.injEq, Except.error.injEq] at reads
      obtain ⟨rfl, rfl⟩ := reads
      refine ⟨Nat.le_refl _, fun interruption => ?_⟩
      cases known <;> simp [ChannelError.isInterruption, ChannelError.kind, PayloadError.kind] at interruption
    split at reads
    · simp at reads
    split at reads
    · rename_i e' s failed
      simp only [Prod.mk.injEq, Except.error.injEq] at reads
      obtain ⟨rfl, rfl⟩ := reads
      split at failed
      · obtain ⟨le, final⟩ := bound_nextChunk failed
        exact ⟨le, fun interruption => by simp [final _ rfl] at interruption⟩
      · simp at failed
    · simp at reads

end PayloadReader

end AgeCrypt
