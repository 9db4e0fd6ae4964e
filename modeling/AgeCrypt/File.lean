import AgeCrypt.Header.Reading

/-!
# Files in memory

A whole file, split behind its header. What follows the header is kept as it is: the nonce and the payload.
-/

namespace AgeCrypt

structure File where
  header : Header
  /-- The nonce and the encrypted payload. -/
  body : Bytes
deriving DecidableEq

namespace File

/-- Reads a whole file, which is not armored. -/
def read {ρ : Type} [Reader ρ] (r : ρ) : Except DecryptError File :=
  match Header.read (Buffered.ofReader r) with
  | (.error e, _) => .error e
  | (.ok header, r') =>
    let rest := Reader.drain r'
    match rest.failure? with
    | some e => .error (.channel e)
    | none => if rest.bytes.length < 16 then .error (.header .missingNonce) else .ok ⟨header, rest.bytes⟩

def write {ω : Type} [Writer ω] (f : File) (w : ω) : Except ChannelError Unit × ω :=
  match f.header.write w with
  | (.error e, w') => (.error e, w')
  | (.ok (), w') => Writer.writeAll w' f.body

def toBytes (f : File) : Bytes := f.header.toBytes ++ f.body

end File

end AgeCrypt
