import AgeCrypt.Bech32
import AgeCrypt.Crypto.Curve25519
import AgeCrypt.Recipient

/-!
# X25519 keys

A file key is wrapped for a public key under a key that is derived from the shared secret with an ephemeral
secret. Secret and public keys are written in Bech32, the secret ones in upper case.
-/

namespace AgeCrypt.X25519

/-- A secret key, as it was drawn or given. -/
structure SecretKey where
  block : Block 32
deriving DecidableEq

/-- A public key, as it was given. -/
structure PublicKey where
  block : Block 32
deriving DecidableEq

def tag : String := "X25519"

def secretPart : String := "age-secret-key-"

def publicPart : String := "age"

/-- The 32 bytes of a key with this human-readable part. -/
def parseKey (part : String) (s : String) : Except KeyError (Block 32) :=
  match Bech32.decode s with
  | .error _ => .error .malformed
  | .ok (hrp, data) =>
    if hrp ≠ part then .error .otherPart
    else
      match Block.ofBytes? 32 data with
      | none => .error .otherLength
      | some block => .ok block

def keyText (part : String) (block : Block 32) : String :=
  String.ofList (Bech32.assemble part.toList block.bytes)

namespace SecretKey

/-- The secret key of a text in either case. -/
def parse (s : String) : Except KeyError SecretKey := (parseKey secretPart s).map .mk

def text (key : SecretKey) : String :=
  String.ofList ((keyText secretPart key.block).toList.map Char.toUpper)

def toPublic (key : SecretKey) : PublicKey := ⟨Curve25519.publicKey key.block⟩

def generate : Drawing SecretKey := SecretKey.mk <$> Randomness.draw 32

end SecretKey

namespace PublicKey

/-- The public key of a text in either case. -/
def parse (s : String) : Except KeyError PublicKey := (parseKey publicPart s).map .mk

def text (key : PublicKey) : String := keyText publicPart key.block

end PublicKey

/-- The key that wraps a file key: derived from the shared secret and both public keys. -/
def wrappingKey (share recipient : PublicKey) (shared : Block 32) : Block 32 :=
  hkdf (share.block.bytes ++ recipient.block.bytes) (utf8 "age-encryption.org/v1/X25519") shared.bytes

def wrapWith (ephemeral : SecretKey) (recipient : PublicKey) (fileKey : FileKey) : Stanza :=
  let share := ephemeral.toPublic
  let shared := Curve25519.sharedSecret ephemeral.block recipient.block
  { tag
    args := [Base64.encodeText share.block.bytes]
    body := wrapUnder (wrappingKey share recipient shared) fileKey }

/-- The ephemeral share of a stanza, if it is one for X25519 keys. -/
def shareOf? (stanza : Stanza) : Option PublicKey :=
  match decide (stanza.tag = tag), stanza.args with
  | true, [arg] => (Base64.blockOf? 32 arg).map .mk
  | _, _ => none

/-- Unwraps a body with the ephemeral share that stands before it. A body that does not open is for another
    key. -/
def unwrapWith (secret : SecretKey) (share : PublicKey) (body : Bytes) : Option (Except DecryptError FileKey) :=
  if body.length ≠ wrappedLength then some (.error .wrappedKeyLength)
  else
    let shared := Curve25519.sharedSecret secret.block share.block
    if !Curve25519.contributory shared then some (.error .lowOrderPoint)
    else (unwrapUnder (wrappingKey share secret.toPublic shared) body).map .ok

/-- The recipient who holds the secret of a public key. -/
def recipient (key : PublicKey) : Recipient where
  wrap fileKey := do
    let ephemeral ← Randomness.draw 32
    pure ([wrapWith ⟨ephemeral⟩ key fileKey], .empty)
  isPassphrase := false

def identity (secret : SecretKey) : Identity where
  unwrap stanza := (shareOf? stanza).bind fun share => unwrapWith secret share stanza.body

end AgeCrypt.X25519
