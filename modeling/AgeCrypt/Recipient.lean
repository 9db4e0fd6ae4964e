import AgeCrypt.Crypto.Aead
import AgeCrypt.Header
import AgeCrypt.Randomness

/-!
# Recipients and identities

A recipient wraps a file key as stanzas, and an identity unwraps one of them. Both are open: any functions of
these types will do. X25519 keys and passphrases are the ones that come with the library.
-/

namespace AgeCrypt

structure Recipient where
  /-- The stanzas that wrap a file key, and the labels that all recipients of the file have to share. -/
  wrap : FileKey → Encrypting (List Stanza × LabelSet)
  /-- Whether a passphrase opens the stanzas, which then have to stand alone. -/
  isPassphrase : Bool

/-- The file key of the first stanza that is for an identity which unwraps stanzas in this way. -/
def firstUnwrapped (unwrap : Stanza → Option (Except DecryptError FileKey)) (stanzas : List Stanza) :
    Except UnwrapError FileKey :=
  match stanzas.findSome? unwrap with
  | some (.ok key) => .ok key
  | some (.error e) => .error (.fatal e)
  | none => .error (.recovered .noMatch)

structure Identity where
  /-- The file key of a stanza or why it cannot be unwrapped, or nothing if the stanza is not for this
      identity. -/
  unwrap : Stanza → Option (Except DecryptError FileKey)
  /-- The file key of the stanzas of a header. An identity that says nothing else about it unwraps the first stanza that
      is for it. -/
  unwrapAll : List Stanza → Except UnwrapError FileKey := firstUnwrapped unwrap

/-- The file key of the first stanza that is for this identity. -/
def Identity.unwrapFirst (identity : Identity) (stanzas : List Stanza) : Except UnwrapError FileKey :=
  firstUnwrapped identity.unwrap stanzas

def wrappedLength : Nat := 16 + Aead.tagLength

/-- Wraps a file key under a key that serves for nothing else. -/
def wrapUnder (key : Block 32) (fileKey : FileKey) : Bytes := encryptOnce key fileKey.bytes

def unwrapUnder (key : Block 32) (body : Bytes) : Option FileKey :=
  (decryptOnce key 16 body).toOption.bind (Block.ofBytes? 16)

end AgeCrypt
