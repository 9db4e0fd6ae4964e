import AgeCrypt.Armor.Reader
import AgeCrypt.Channel.Copy
import AgeCrypt.Channel.Sink
import AgeCrypt.Channel.Source
import AgeCrypt.Event
import AgeCrypt.File
import AgeCrypt.Payload.Reader
import AgeCrypt.Recipient

/-!
# Decrypting

The header is read, identities are tried in order until one gives a file key, and the MAC is checked under it.
Only then is the payload read. `decrypt` writes the plaintext chunk by chunk.
-/

namespace AgeCrypt

/-- A file of which all but the payload was read. -/
structure LockedFile (ρ : Type) where
  header : Header
  nonce : PayloadNonce
  /-- What the payload is read from. -/
  input : ρ

/-- How decryption ended, what was written to and what is to be logged. -/
structure Decrypted (ω : Type) where
  result : Except DecryptError Unit
  output : ω
  events : List Event

namespace LockedFile
variable {ρ : Type} [Reader ρ]

def nonceError (e : ChannelError) : DecryptError :=
  if e.kind = .unexpectedEnd then .header .missingNonce else .channel e

def ofHeader (header : Header) (input : ρ) : Except DecryptError (LockedFile ρ) :=
  if !header.passphraseAlone then .error .passphraseNotAlone
  else
    match Reader.readExactly input 16 with
    | (.error e, _) => .error (nonceError e)
    | (.ok nonce, input) => .ok ⟨header, nonce, input⟩

/-- Reads a file that is not armored up to its payload. -/
def ofBuffered (input : Buffered ρ) : Except DecryptError (LockedFile (Buffered ρ)) :=
  match Header.read input with
  | (.error e, _) => .error e
  | (.ok header, input) => ofHeader header input

/-- Reads a file that may be armored up to its payload. -/
def ofReader (input : ρ) : Except DecryptError (LockedFile (Buffered (ArmorReader ρ))) :=
  ofBuffered (Buffered.ofReader (ArmorReader.ofReader input))

def ofFile (f : File) : Except DecryptError (LockedFile Source) := ofHeader f.header (Source.ofBytes f.body)

def noneLeft (failures : List DecryptError) : DecryptError :=
  if failures.isEmpty then .noIdentities else .noneMatched failures

/-- Tries identities on stanzas, after those before `index` failed. -/
def tryFrom (stanzas : List Stanza) :
    (index : Nat) → (failures : List DecryptError) → List Identity → Except DecryptError FileKey × List Event
  | _, failures, [] => (.error (noneLeft failures), [])
  | index, failures, identity :: identities =>
    match identity.unwrapAll stanzas with
    | .ok key => (.ok key, [.identityMatched index])
    | .error (.fatal e) => (.error e, [])
    | .error (.recovered e) =>
      match tryFrom stanzas (index + 1) (failures ++ [e]) identities with
      | (result, events) => (result, .identityPassedOver index e :: events)

/-- The file key that the first identity with one gives. -/
def findKey (f : LockedFile ρ) (identities : List Identity) : Except DecryptError FileKey × List Event :=
  tryFrom f.header.recipients 0 [] identities

/-- The reader of the plaintext under a file key, if the MAC of the header is right under it. -/
def unlockWith (f : LockedFile ρ) (key : FileKey) : Except DecryptError (PayloadReader ρ) :=
  if f.header.hasMac key then .ok (.start (.chaCha20Poly1305 (key.payloadKey f.nonce)) f.input)
  else .error .wrongMac

/-- The reader of the plaintext for the first identity that has the file key. -/
def unlock (f : LockedFile ρ) (identities : List Identity) :
    Except DecryptError (PayloadReader ρ) × List Event :=
  match f.findKey identities with
  | (.error e, events) => (.error e, events)
  | (.ok key, events) => (f.unlockWith key, events)

end LockedFile

/-- Decrypts all of an input, which may be armored, and writes the plaintext. -/
def decrypt {ρ ω : Type} [Reader ρ] [Writer ω] (identities : List Identity) (input : ρ) (output : ω) :
    Decrypted ω :=
  match LockedFile.ofReader input with
  | .error e => ⟨.error e, output, []⟩
  | .ok locked =>
    match locked.unlock identities with
    | (.error e, events) => ⟨.error e, output, events⟩
    | (.ok plaintext, events) =>
      let copied := copy plaintext output
      match copied.result with
      | .error e => ⟨.error (.channel e), copied.writer, events⟩
      | .ok () =>
        match Writer.flush copied.writer with
        | (result, output) => ⟨result.mapError .channel, output, events⟩

def decryptInMemory (identities : List Identity) (f : File) :
    Except DecryptError (PayloadReader Source) × List Event :=
  match LockedFile.ofFile f with
  | .error e => (.error e, [])
  | .ok locked => locked.unlock identities

def decryptBytes (identity : Identity) (ciphertext : Bytes) : Decrypted Sink :=
  decrypt [identity] (Source.ofBytes ciphertext) Sink.unlimited

end AgeCrypt
