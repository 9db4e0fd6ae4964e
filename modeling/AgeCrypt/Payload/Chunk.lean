import AgeCrypt.Crypto.Aead
import AgeCrypt.Error

/-!
# Chunks of a payload

A payload is cut into chunks of 64 KiB, of which only the last may be shorter, and none is empty unless the
payload is. Each chunk is encrypted under a nonce of its number and a flag that marks the last one. `Chunk.layout`
is the payload as it is written.
-/

namespace AgeCrypt

namespace Chunk

def size : Nat := 65536

def encryptedSize : Nat := size + Aead.tagLength

theorem size_pos : 0 < size := by decide

end Chunk

/-- The number of a chunk and whether it is the last. -/
structure ChunkNonce where
  counter : Nat
  last : Bool
deriving DecidableEq

namespace ChunkNonce

def range : Nat := 1 <<< 88

def first : ChunkNonce := ⟨0, false⟩

/-- The nonce of the cipher: the number in eleven bytes, highest first, and the flag. -/
def toBlock (n : ChunkNonce) : Block 12 := ⟨bigEndian 11 n.counter ++ [if n.last then 1 else 0], by simp⟩

/-- The nonce of the chunk with the same number, marked as the last one or not. -/
def marked (n : ChunkNonce) (last : Bool) : ChunkNonce := { n with last }

/-- The nonce behind a chunk that was marked as the last one or not. Behind the last chunk there is no other.
    The number starts again when all are used, which is an error. -/
def after (n : ChunkNonce) (last : Bool) : Except PayloadError Unit × ChunkNonce :=
  if last then (.ok (), n.marked true)
  else if n.counter + 1 = range then (.error .tooManyChunks, ⟨0, false⟩)
  else (.ok (), ⟨n.counter + 1, false⟩)

end ChunkNonce

namespace Chunk

/-- Encrypts the next chunk, with any function in the place of the cipher. Returns the nonce behind it also when it fails. -/
def encryptBy {m : Type → Type} [Monad m] (encrypts : Block 12 → Bytes → m Bytes) (nonce : ChunkNonce) (chunk : Bytes)
    (last : Bool) : m (Except PayloadError Bytes × ChunkNonce) :=
  if nonce.last then pure (.error .alreadyFinished, nonce)
  else if chunk = [] ∧ ¬ (last ∧ nonce.counter = 0) then pure (.error .emptyChunk, nonce)
  else do
    let encrypted ← encrypts (nonce.marked last).toBlock chunk
    match nonce.after last with
    | (.error e, nonce') => pure (.error e, nonce')
    | (.ok (), nonce') => pure (.ok encrypted, nonce')

def encrypt (cipher : Cipher) (nonce : ChunkNonce) (chunk : Bytes) (last : Bool) : Except PayloadError Bytes × ChunkNonce :=
  encryptBy (m := Id) cipher.encrypt nonce chunk last

/-- The chunks of a payload: full ones and a last one, which is empty only if the payload is. -/
def split (payload : Bytes) : List Bytes := if payload = [] then [[]] else pieces size payload

/-- A payload as it is written, from the chunk with a given number on. -/
def layoutFrom (cipher : Cipher) : (counter : Nat) → List Bytes → Bytes
  | _, [] => []
  | counter, [chunk] => cipher.encrypt (ChunkNonce.toBlock ⟨counter, true⟩) chunk
  | counter, chunk :: rest =>
    cipher.encrypt (ChunkNonce.toBlock ⟨counter, false⟩) chunk ++ layoutFrom cipher (counter + 1) rest

def layout (cipher : Cipher) (payload : Bytes) : Bytes := layoutFrom cipher 0 (split payload)

end Chunk

end AgeCrypt
