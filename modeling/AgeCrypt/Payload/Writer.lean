import AgeCrypt.Payload.Chunk
import AgeCrypt.Channel.Writer

/-!
# Writing a payload

The bytes that are written are gathered into chunks. A full chunk is encrypted only when more bytes come,
because the last chunk is marked as such when the payload is finished.
-/

namespace AgeCrypt

/-- Where the encrypted chunks go, and the nonce of the next one. -/
structure ChunkOutput (ω : Type) where
  cipher : Cipher
  nonce : ChunkNonce
  inner : ω

structure PayloadWriter (ω : Type) where
  output : ChunkOutput ω
  chunk : Bytes

namespace ChunkOutput
variable {ω : Type} [Writer ω]

/-- Writes a chunk that was encrypted, if it was, and takes the nonce behind it. -/
def passOn (o : ChunkOutput ω) : Except PayloadError Bytes × ChunkNonce → Except ChannelError Unit × ChunkOutput ω
  | (.error e, nonce) => (.error (.payload e), { o with nonce })
  | (.ok encrypted, nonce) =>
    match Writer.writeAll o.inner encrypted with
    | (result, inner) => (result, { o with nonce, inner })

/-- Passes a chunk on, with any function in the place of the cipher. -/
def passBy {m : Type → Type} [Monad m] (encrypts : Block 12 → Bytes → m Bytes) (o : ChunkOutput ω) (chunk : Bytes)
    (last : Bool) : m (Except ChannelError Unit × ChunkOutput ω) := do
  let encrypted ← Chunk.encryptBy encrypts o.nonce chunk last
  pure (o.passOn encrypted)

def pass (o : ChunkOutput ω) (chunk : Bytes) (last : Bool) : Except ChannelError Unit × ChunkOutput ω :=
  passBy (m := Id) o.cipher.encrypt o chunk last

theorem pass_eq (o : ChunkOutput ω) (chunk : Bytes) (last : Bool) :
    o.pass chunk last = o.passOn (Chunk.encrypt o.cipher o.nonce chunk last) := rfl

end ChunkOutput

namespace PayloadWriter
variable {ω : Type} [Writer ω]

def start (cipher : Cipher) (inner : ω) : PayloadWriter ω := ⟨⟨cipher, .first, inner⟩, []⟩

/-- One call: takes all bytes unless a full chunk cannot be passed on. -/
def write (w : PayloadWriter ω) (bs : Bytes) : Except ChannelError Nat × PayloadWriter ω :=
  let gathered := gather Chunk.size Chunk.size_pos (fun o chunk => o.pass chunk false) w.output w.chunk bs
  (gathered.result.map fun _ => bs.length, ⟨gathered.state, gathered.held⟩)

instance : Writer (PayloadWriter ω) where
  write := write
  flush w :=
    match Writer.flush w.output.inner with
    | (result, inner) => (result, { w with output := { w.output with inner } })

def finish (w : PayloadWriter ω) : Except ChannelError Unit × PayloadWriter ω :=
  match w.output.pass w.chunk true with
  | (result, output) => (result, { w with output })

end PayloadWriter

end AgeCrypt
